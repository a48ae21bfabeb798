import NextBSD.Libpkg.QueryReading

/-!
# The scanner of a condition takes its tests

A stretch of the scanner for each part of a test: the field, the blanks, the operator and the
value.  Together they take a test off the condition as `takeTest` does.
-/

namespace NextBSD.Libpkg.Query

open QuotedText

variable {forRemote : Bool} {q q' : Scanner} {c : Char} {k level : Nat}
  {str rest sql t : List Char} {f : Field} {op : Operator}

theorem loop_nil : loop forRemote q [] = finish q := by rw [loop]

theorem loop_cons :
    (step forRemote q c rest = .fatal → loop forRemote q (c :: rest) = .fatal) ∧
    (∀ q', step forRemote q c rest = .again q' →
      loop forRemote q (c :: rest) = loop forRemote q' (c :: rest)) ∧
    ∀ q' k, step forRemote q c rest = .next q' k → loop forRemote q (c :: rest) =
      if rest.length < k then .pastEnd else loop forRemote q' (rest.drop k) := by
  rw [loop]
  split
  · rename_i hq
    rw [hq]
    exact ⟨fun _ => rfl, fun q' h => (by cases h), fun q' k h => (by cases h)⟩
  · rename_i q'' hq
    rw [hq]
    refine ⟨fun h => (by cases h), fun q' h => ?_, fun q' k h => (by cases h)⟩
    cases h
    rfl
  · rename_i q'' k' hq
    rw [hq]
    refine ⟨fun h => (by cases h), fun q' h => (by cases h), fun q' k h => ?_⟩
    cases h
    rfl

theorem loop_fatal (h : step forRemote q c rest = .fatal) :
    loop forRemote q (c :: rest) = .fatal := loop_cons.1 h

theorem loop_again (h : step forRemote q c rest = .again q') :
    loop forRemote q (c :: rest) = loop forRemote q' (c :: rest) := loop_cons.2.1 q' h

theorem loop_next (h : step forRemote q c rest = .next q' k) :
    loop forRemote q (c :: rest) =
      if rest.length < k then .pastEnd else loop forRemote q' (rest.drop k) :=
  loop_cons.2.2 q' k h

theorem loop_step (h : step forRemote q c rest = .next q' 0) :
    loop forRemote q (c :: rest) = loop forRemote q' rest := by
  rw [loop_next h, if_neg (Nat.not_lt_zero _), List.drop_zero]

theorem loop_step_one {d : Char} (h : step forRemote q c (d :: rest) = .next q' 1) :
    loop forRemote q (c :: d :: rest) = loop forRemote q' rest := by
  rw [loop_next h, if_neg (by simp)]
  rfl

theorem loop_blanks (h : ∀ c rest, isspace c = true → step forRemote q c rest = .next q 0)
    (str : List Char) : loop forRemote q str = loop forRemote q (str.dropWhile isspace) := by
  induction str with
  | nil => rfl
  | cons c str ih =>
    cases hc : isspace c with
    | true => rw [List.dropWhile_cons_of_pos hc, loop_step (h c str hc), ih]
    | false => rw [List.dropWhile_cons_of_neg (by simp [hc])]

def Place.state : Place → State
  | .before => .none
  | .after => .postExpr

def between (p : Place) (level : Nat) (sql : List Char) : Scanner :=
  { state := p.state, bracketLevel := level, sqlcond := sql }

def atOperator (f : Field) (level : Nat) (sql : List Char) : Scanner :=
  { state := f.kind.operator
    bracketLevel := level
    multilineSubquery := f.multiline
    pendingSubquery := f.pending
    sqlcond := sql }

def atValue (f : Field) (op : Operator) (level : Nat) (sql : List Char) : Scanner :=
  { state := f.kind.next
    bracketLevel := level
    collateNocase := op.nocase
    multilineSubquery := f.multiline
    sqlcond := sql }

theorem loop_field (str : List Char) :
    loop forRemote (between .before level sql) ('%' :: str) =
      match switchField forRemote str with
      | none => .fatal
      | some (f, k) =>
        if str.length < k then .pastEnd
        else loop forRemote (atOperator f level (sql ++ f.shown.toList)) (str.drop k) := by
  cases hf : switchField forRemote str with
  | none => exact loop_fatal (by simp only [between, step, Place.state, stepNone, hf, if_true])
  | some p =>
    obtain ⟨f, k⟩ := p
    refine loop_next ?_
    simp only [between, step, Place.state, stepNone, hf, if_true, atOperator, Scanner.print,
      Option.or_none, Bool.or_false]

/-! ## The operator -/

theorem step_atOperator (forRemote : Bool) (f : Field) (level : Nat) (sql : List Char) (c : Char)
    (rest : List Char) :
    step forRemote (atOperator f level sql) c rest =
      stepOperator f.kind (atOperator f level sql) c rest := by
  cases hk : f.kind <;> simp only [step, atOperator, hk, Kind.operator]

theorem sql_of_plain (h : op.negated = false) : op.sql = op.plain := by
  cases op with
  | glob negated nocase => cases negated <;> first | rfl | cases h
  | equal negated nocase => cases negated <;> first | rfl | cases h
  | less orEqual => rfl
  | greater orEqual => rfl

theorem exists_print (f : Field) (level : Nat) (sql : List Char) (h : op.negated = false) :
    (atOperator f level sql).exists.print op.plain =
      { atOperator f level (sql ++ operatorText f op) with pendingSubquery := none } := by
  cases hp : f.pending with
  | none =>
    simp only [Scanner.exists, atOperator, operatorText, hp, Scanner.print, sql_of_plain h]
  | some sub =>
    simp only [Scanner.exists, atOperator, operatorText, hp, Scanner.print, h, List.append_assoc,
      Bool.false_eq_true, if_false]

theorem negatedText_equal (f : Field) (nocase : Bool) :
    negatedText f.pending (some '=') = some (operatorText f (.equal true nocase)) := by
  unfold operatorText
  cases f.pending with
  | none => rfl
  | some sub =>
    show some (_ ++ _) = some ((if true = true then _ else _) ++ _ ++ _)
    rw [if_pos rfl]
    rfl

theorem negatedText_glob (f : Field) (nocase : Bool) :
    negatedText f.pending (some '~') = some (operatorText f (.glob true nocase)) := by
  unfold operatorText
  cases f.pending with
  | none => rfl
  | some sub =>
    show some (_ ++ _) = some ((if true = true then _ else _) ++ _ ++ _)
    rw [if_pos rfl]
    rfl

theorem negatedText_other {d : Option Char} (h : d ≠ some '=') (h' : d ≠ some '~') :
    negatedText f.pending d = none := by
  unfold negatedText
  split <;> first | rfl | contradiction

def afterOperator (forRemote : Bool) (f : Field) (level : Nat) (sql : List Char) :
    Taken Operator → Outcome
  | .refused => .fatal
  | .pastEnd => .pastEnd
  | .took op rest => loop forRemote (atValue f op level (sql ++ operatorText f op)) rest

theorem loop_atValue {s : State} {b : Bool} (op : Operator) (hs : s = f.kind.next)
    (hb : b = op.nocase) :
    loop forRemote { atOperator f level t with
      pendingSubquery := none, state := s, collateNocase := b } rest =
      loop forRemote (atValue f op level t) rest := by
  subst hs hb
  rfl

theorem loop_tilde (rest : List Char) :
    loop forRemote (atOperator f level sql) ('~' :: rest) =
      afterOperator forRemote f level sql (takeOperator f.kind ('~' :: rest)) := by
  have hprint := exists_print f level sql (rfl : (Operator.glob false false).negated = false)
  have hstep := step_atOperator forRemote f level sql '~' rest
  rw [stepOperator, if_neg (by decide), if_pos rfl] at hstep
  cases hk : f.kind with
  | int =>
    rw [hk, if_pos (by decide)] at hstep
    exact loop_fatal hstep
  | string =>
    rw [hk, if_neg (by decide), show " GLOB ".toList = (Operator.glob false false).plain from rfl,
      hprint] at hstep
    rw [loop_step hstep]
    exact loop_atValue (.glob false false) (by rw [hk]; rfl) rfl

theorem loop_order {c : Char} (order : Bool → Operator) (hc : c = '>' ∨ c = '<')
    (hplain : (order false).plain = [c]) (hplain' : (order true).plain = [c, '='])
    (hneg : ∀ b, (order b).negated = false) (hnocase : ∀ b, (order b).nocase = false)
    (htake : ∀ rest, takeOperator .int (c :: '=' :: rest) = .took (order true) rest)
    (htake' : ∀ rest : List Char, rest.head? ≠ some '=' →
      takeOperator .int (c :: rest) = .took (order false) rest)
    (hrefused : ∀ rest, takeOperator .string (c :: rest) = .refused) (rest : List Char) :
    loop forRemote (atOperator f level sql) (c :: rest) =
      afterOperator forRemote f level sql (takeOperator f.kind (c :: rest)) := by
  have hprint (b : Bool) := exists_print f level sql (hneg b)
  have hstep := step_atOperator forRemote f level sql c rest
  have hspace : ¬isspace c = true := by rcases hc with rfl | rfl <;> decide
  have htilde : c ≠ '~' := by rcases hc with rfl | rfl <;> decide
  rw [stepOperator, if_neg hspace, if_neg htilde, if_pos hc] at hstep
  cases hk : f.kind with
  | string =>
    rw [hk, if_pos (by decide)] at hstep
    rw [hrefused]
    exact loop_fatal hstep
  | int =>
    rw [hk, if_neg (by decide)] at hstep
    by_cases hr : rest.head? = some '='
    · obtain ⟨rest, rfl⟩ := List.head?_eq_some_iff.mp hr
      rw [if_pos hr, ← hplain', hprint] at hstep
      rw [loop_step_one hstep, htake]
      exact loop_atValue _ (by rw [hk]; rfl) (hnocase true).symm
    · rw [if_neg hr, ← hplain, hprint] at hstep
      rw [loop_step hstep, htake' rest hr]
      exact loop_atValue _ (by rw [hk]; rfl) (hnocase false).symm

theorem loop_less (rest : List Char) :
    loop forRemote (atOperator f level sql) ('<' :: rest) =
      afterOperator forRemote f level sql (takeOperator f.kind ('<' :: rest)) := by
  refine loop_order Operator.less (.inr rfl) rfl rfl (fun _ => rfl) (fun _ => rfl)
    (fun _ => rfl) (fun rest hrest => ?_) (fun _ => rfl) rest
  cases rest with
  | nil => rfl
  | cons d r =>
    have hd : d ≠ '=' := fun h => hrest (by rw [h]; rfl)
    simp [takeOperator, readOperator, hd]

theorem loop_greater (rest : List Char) :
    loop forRemote (atOperator f level sql) ('>' :: rest) =
      afterOperator forRemote f level sql (takeOperator f.kind ('>' :: rest)) := by
  refine loop_order Operator.greater (.inl rfl) rfl rfl (fun _ => rfl) (fun _ => rfl)
    (fun _ => rfl) (fun rest hrest => ?_) (fun _ => rfl) rest
  cases rest with
  | nil => rfl
  | cons d r =>
    have hd : d ≠ '=' := fun h => hrest (by rw [h]; rfl)
    simp [takeOperator, readOperator, hd]

theorem loop_equal (rest : List Char) :
    loop forRemote (atOperator f level sql) ('=' :: rest) =
      afterOperator forRemote f level sql (takeOperator f.kind ('=' :: rest)) := by
  have hprint (b : Bool) := exists_print f level sql
    (rfl : (Operator.equal false b).negated = false)
  have hplain (b : Bool) : ['='] = (Operator.equal false b).plain := rfl
  have hstep := step_atOperator forRemote f level sql '=' rest
  rw [stepOperator, if_neg (by decide), if_neg (by decide), if_neg (by decide), if_pos rfl]
    at hstep
  by_cases hr : rest.head? = some '='
  · obtain ⟨rest, rfl⟩ := List.head?_eq_some_iff.mp hr
    have htake : takeOperator f.kind ('=' :: '=' :: rest) = .took (.equal false false) rest := by
      cases f.kind <;> rfl
    rw [if_pos hr, hplain false, hprint] at hstep
    rw [loop_step_one hstep, htake]
    exact loop_atValue (.equal false false) rfl rfl
  rw [if_neg hr] at hstep
  by_cases ht : rest.head? = some '~' ∧ f.kind = .string
  · obtain ⟨htilde, hk⟩ := ht
    obtain ⟨rest, rfl⟩ := List.head?_eq_some_iff.mp htilde
    rw [if_pos ⟨htilde, hk⟩, hplain true, hprint] at hstep
    rw [loop_step_one hstep, hk]
    exact loop_atValue (.equal false true) (by rw [hk]) rfl
  · have htake : takeOperator f.kind ('=' :: rest) = .took (.equal false false) rest := by
      cases rest with
      | nil => cases f.kind <;> rfl
      | cons d r =>
        have hd : d ≠ '=' := fun h => hr (by rw [h]; rfl)
        cases hk : f.kind with
        | int => simp [takeOperator, readOperator, hd]
        | string =>
          have hd' : d ≠ '~' := fun h => ht ⟨by rw [h]; rfl, hk⟩
          simp [takeOperator, readOperator, hd, hd']
    rw [if_neg ht, hplain false, hprint] at hstep
    rw [loop_step hstep, htake]
    exact loop_atValue (.equal false false) rfl rfl

theorem loop_negated (rest : List Char) :
    loop forRemote (atOperator f level sql) ('!' :: rest) =
      afterOperator forRemote f level sql (takeOperator f.kind ('!' :: rest)) := by
  have hstep := step_atOperator forRemote f level sql '!' rest
  rw [stepOperator, if_neg (by decide), if_neg (by decide), if_neg (by decide),
    if_neg (by decide), if_pos rfl] at hstep
  have hpending : (atOperator f level sql).pendingSubquery = f.pending := rfl
  rw [hpending] at hstep
  by_cases hequal : rest.head? = some '='
  · have htilde : ¬(rest.head? = some '~' ∧ f.kind = .string) := by
      rw [hequal]
      exact fun h => absurd (Option.some.inj h.1) (by decide)
    rw [hequal, negatedText_equal f false] at hstep
    obtain ⟨rest, rfl⟩ := List.head?_eq_some_iff.mp hequal
    have htake : takeOperator f.kind ('!' :: '=' :: rest) = .took (.equal true false) rest := by
      cases f.kind <;> rfl
    rw [loop_step_one (hstep.trans (if_neg htilde)), htake]
    exact loop_atValue (.equal true false) rfl rfl
  by_cases htilde : rest.head? = some '~'
  · obtain ⟨rest, rfl⟩ := List.head?_eq_some_iff.mp htilde
    cases hk : f.kind with
    | int =>
      rw [htilde, negatedText_glob f false, hk] at hstep
      rw [loop_step_one (hstep.trans (if_neg fun h => by cases h.2))]
      exact loop_atValue (.glob true false) (by rw [hk]) rfl
    | string =>
      rw [htilde, negatedText_glob f true, hk] at hstep
      rw [loop_next (hstep.trans (if_pos ⟨rfl, rfl⟩))]
      cases rest with
      | nil => rfl
      | cons d rest =>
        rw [if_neg (by simp)]
        exact loop_atValue (.glob true true) (by rw [hk]) rfl
  · rw [negatedText_other hequal htilde] at hstep
    have htake : takeOperator f.kind ('!' :: rest) = .refused := by
      cases rest with
      | nil => cases f.kind <;> rfl
      | cons d r =>
        have hd : d ≠ '=' := fun h => hequal (by rw [h]; rfl)
        have hd' : d ≠ '~' := fun h => htilde (by rw [h]; rfl)
        cases f.kind <;> simp [takeOperator, readOperator, hd, hd']
    rw [loop_fatal hstep, htake]
    rfl

theorem loop_operator (hspace : ∀ c, str.head? = some c → isspace c = false) :
    loop forRemote (atOperator f level sql) str =
      afterOperator forRemote f level sql (takeOperator f.kind str) := by
  cases str with
  | nil =>
    rw [loop_nil]
    cases hk : f.kind <;> simp [finish, atOperator, hk, Kind.operator, takeOperator, readOperator,
      afterOperator]
  | cons c rest =>
    have hc := hspace c rfl
    by_cases htilde : c = '~'
    · rw [htilde, loop_tilde]
    by_cases hless : c = '<'
    · rw [hless, loop_less]
    by_cases hgreater : c = '>'
    · rw [hgreater, loop_greater]
    by_cases hequal : c = '='
    · rw [hequal, loop_equal]
    by_cases hnegated : c = '!'
    · rw [hnegated, loop_negated]
    have htake : takeOperator f.kind (c :: rest) = .refused := by
      cases f.kind <;> simp [takeOperator, readOperator, htilde, hless, hgreater, hequal, hnegated]
    have hstep := step_atOperator forRemote f level sql c rest
    rw [stepOperator, if_neg (by simp [hc]), if_neg htilde, if_neg (by simp [hless, hgreater]),
      if_neg hequal, if_neg hnegated] at hstep
    rw [loop_fatal hstep, htake]
    rfl

/-! ## The value -/

theorem loop_text {s : State} {ends : Char → Bool}
    (hs : ∀ (q : Scanner) c rest, q.state = s →
      step forRemote q c rest = stepString forRemote ends q c)
    (str : List Char) (hq : q.state = s) :
    loop forRemote q str =
      match str.dropWhile (!ends ·) with
      | [] => finish (q.print (double (isDoubled forRemote) str))
      | _ :: rest => loop forRemote
          (q.print (double (isDoubled forRemote) (str.takeWhile (!ends ·)))).closeString rest := by
  induction str generalizing q with
  | nil =>
    rw [loop_nil]
    simp only [List.dropWhile_nil, double, Scanner.print, List.append_nil]
  | cons c str ih =>
    have hstep := hs q c str hq
    rw [stepString] at hstep
    cases hc : ends c with
    | true =>
      rw [if_pos hc] at hstep
      rw [loop_step hstep, List.dropWhile_cons_of_neg (by simp [hc]),
        List.takeWhile_cons_of_neg (by simp [hc])]
      simp only [double, Scanner.print, List.append_nil]
    | false =>
      rw [if_neg (by simp [hc])] at hstep
      rw [List.dropWhile_cons_of_pos (by simp [hc]), List.takeWhile_cons_of_pos (by simp [hc])]
      cases hd : isDoubled forRemote c with
      | true =>
        rw [if_pos hd] at hstep
        rw [loop_step hstep, ih (q := q.print [c, c]) hq]
        simp only [double_special hd, Scanner.print, List.append_assoc, List.cons_append,
          List.nil_append]
      | false =>
        rw [if_neg (by simp [hd])] at hstep
        rw [loop_step hstep, ih (q := q.print [c]) hq]
        simp only [double_plain hd, Scanner.print, List.append_assoc, List.cons_append,
          List.nil_append]

theorem loop_digits (str : List Char) (hq : q.state = .int) (hm : q.multilineSubquery = false) :
    loop forRemote q str =
      loop forRemote { q.print (str.takeWhile Char.isDigit) with state := .postExpr }
        (str.dropWhile Char.isDigit) := by
  induction str generalizing q with
  | nil =>
    rw [List.takeWhile_nil, List.dropWhile_nil, loop_nil, loop_nil]
    simp [finish, hq, Scanner.print]
  | cons c str ih =>
    have hstep : step forRemote q c str = stepInt q c := by rw [step, hq]
    rw [stepInt] at hstep
    cases hc : c.isDigit with
    | true =>
      rw [if_pos hc] at hstep
      rw [loop_step hstep, ih (q := q.print [c]) hq hm, List.dropWhile_cons_of_pos hc,
        List.takeWhile_cons_of_pos hc]
      simp only [Scanner.print, List.append_assoc, List.cons_append, List.nil_append]
    | false =>
      rw [if_neg (by simp [hc]), if_neg (by simp [hm])] at hstep
      rw [loop_again hstep, List.dropWhile_cons_of_neg (by simp [hc]),
        List.takeWhile_cons_of_neg (by simp [hc])]
      simp only [Scanner.print, List.append_nil]

def afterValue (forRemote : Bool) (f : Field) (op : Operator) (level : Nat) (sql : List Char) :
    Option (Value × List Char) → Outcome
  | none => .fatal
  | some (v, rest) => loop forRemote
      (between .after level
        (sql ++ (v.sql forRemote ++ (collation op.nocase ++ closing f.multiline)))) rest

def inText (s : State) (f : Field) (op : Operator) (level : Nat) (sql : List Char) : Scanner :=
  { atValue f op level sql with state := s }

theorem closeString_inText (s : State) (text : List Char) :
    ((inText s f op level (sql ++ ['\''])).print
      (double (isDoubled forRemote) text)).closeString =
      between .after level (sql ++ ((Value.text text).sql forRemote ++
        (collation op.nocase ++ closing f.multiline))) := by
  simp only [Scanner.closeString, inText, atValue, Scanner.print, between, Place.state, Value.sql,
    collation, closing, List.append_assoc, List.cons_append, List.nil_append]

theorem loop_quoted {s : State} {quote : Char}
    (hs : ∀ (q : Scanner) c rest, q.state = s →
      step forRemote q c rest = stepString forRemote (· = quote) q c)
    (hend : s ≠ .string ∧ s ≠ .postExpr ∧ s ≠ .int) (str : List Char) :
    loop forRemote (inText s f op level (sql ++ ['\''])) str =
      afterValue forRemote f op level sql (readQuoted quote str) := by
  have hfun : (fun c => !decide (c = quote)) = fun c => decide (c ≠ quote) := by
    funext c
    rw [decide_not]
  rw [loop_text hs str rfl, hfun, readQuoted]
  cases str.dropWhile (fun c => decide (c ≠ quote)) with
  | nil =>
    obtain ⟨hstring, hpost, hint⟩ := hend
    simp [finish, inText, Scanner.print, hstring, hpost, hint, afterValue]
  | cons d rest =>
    show loop forRemote _ rest = loop forRemote _ rest
    rw [closeString_inText]

theorem loop_unquoted (str : List Char) :
    loop forRemote (inText .string f op level (sql ++ ['\''])) str =
      afterValue forRemote f op level sql
        (some (.text (str.takeWhile (!isspace ·)), (str.dropWhile (!isspace ·)).tail)) := by
  have hs : ∀ (q : Scanner) c rest, q.state = .string →
      step forRemote q c rest = stepString forRemote isspace q c := by
    intro q c rest hq
    rw [step, hq]
  rw [loop_text hs str rfl, afterValue]
  cases hdrop : str.dropWhile (!isspace ·) with
  | nil =>
    have htake : str.takeWhile (!isspace ·) = str := by
      have happend := List.takeWhile_append_dropWhile (p := (!isspace ·)) (l := str)
      rwa [hdrop, List.append_nil] at happend
    rw [htake, ← closeString_inText .string, List.tail_nil, loop_nil]
    simp [finish, inText, Scanner.print, Scanner.closeString]
  | cons d rest =>
    show loop forRemote _ rest = loop forRemote _ rest
    rw [closeString_inText]

theorem loop_value (hspace : ∀ c, str.head? = some c → isspace c = false)
    (hint : f.kind = .int → f.multiline = false ∧ op.nocase = false) :
    loop forRemote (atValue f op level sql) str =
      afterValue forRemote f op level sql (readValue f.kind str) := by
  cases str with
  | nil =>
    rw [loop_nil]
    cases hk : f.kind <;> simp [finish, atValue, hk, Kind.next, readValue, afterValue]
  | cons c rest =>
    have hc := hspace c rfl
    cases hk : f.kind with
    | int =>
      obtain ⟨hmulti, hnocase⟩ := hint hk
      have hstep : step forRemote (atValue f op level sql) c rest =
          stepNextIsInt (atValue f op level sql) c := by
        simp only [step, atValue, hk, Kind.next]
      rw [stepNextIsInt, if_neg (by simp [hc])] at hstep
      cases hd : c.isDigit with
      | false =>
        rw [if_neg (by simp [hd])] at hstep
        rw [loop_fatal hstep]
        simp [readValue, hd, afterValue]
      | true =>
        rw [if_pos hd] at hstep
        rw [loop_step hstep, loop_digits rest rfl hmulti]
        simp only [readValue, hd, if_true, afterValue, Value.sql, List.takeWhile_cons_of_pos hd,
          List.dropWhile_cons_of_pos hd, hnocase, hmulti, collation, closing, between, Place.state,
          atValue, Scanner.print, List.append_nil, List.append_assoc, List.cons_append,
          List.nil_append, Bool.false_eq_true, if_false]
    | string =>
      have hstep : step forRemote (atValue f op level sql) c rest =
          stepNextIsString (atValue f op level sql) c := by
        simp only [step, atValue, hk, Kind.next]
      rw [stepNextIsString, if_neg (by simp [hc])] at hstep
      by_cases hquote : c = '"'
      · rw [if_pos hquote] at hstep
        rw [loop_step hstep, readValue, if_pos (.inl hquote), hquote]
        exact loop_quoted (fun q c rest hq => by rw [step, hq]) (by decide) rest
      by_cases hsingle : c = '\''
      · rw [if_neg hquote, if_pos hsingle] at hstep
        rw [loop_step hstep, readValue, if_pos (.inr hsingle), hsingle]
        exact loop_quoted (fun q c rest hq => by rw [step, hq]) (by decide) rest
      · rw [if_neg hquote, if_neg hsingle] at hstep
        rw [loop_again hstep, readValue, if_neg (by simp [hquote, hsingle])]
        exact loop_unquoted (c :: rest)

theorem head_dropWhile_isspace (str : List Char) :
    ∀ c, (str.dropWhile isspace).head? = some c → isspace c = false := by
  intro c hc
  have hnot := List.head?_dropWhile_not isspace str
  rw [hc] at hnot
  simpa using hnot

theorem column_int (h : column forRemote c = some f) : f.multiline = false := by
  unfold column at h
  split at h <;> first
    | exact Option.some.inj h ▸ rfl
    | (split_ifs at h; exact Option.some.inj h ▸ rfl)
    | cases h

theorem switchField_int (h : switchField forRemote str = some (f, k)) (hk : f.kind = .int) :
    f.multiline = false := by
  cases str with
  | nil => cases h
  | cons c rest =>
    rw [switchField] at h
    split at h
    · rename_i f' hcolumn
      cases h
      exact column_int hcolumn
    split at h
    · obtain ⟨t, -, ht⟩ := Option.map_eq_some_iff.mp h
      cases ht
      rfl
    split at h
    · cases h
      cases hk
    · obtain ⟨t, -, ht⟩ := Option.map_eq_some_iff.mp h
      cases ht
      cases hk

theorem takeOperator_int (h : takeOperator .int str = .took op rest) : op.nocase = false := by
  unfold takeOperator at h
  cases hread : readOperator .int str with
  | none => simp [hread] at h
  | some p =>
    obtain ⟨op', str'⟩ := p
    simp only [hread, Taken.took.injEq] at h
    rw [← h.1]
    unfold readOperator at hread
    split at hread <;> first
      | contradiction
      | (cases hread; rfl)

def afterTest (forRemote : Bool) (level : Nat) (sql : List Char) : Taken TakenTest → Outcome
  | .refused => .fatal
  | .pastEnd => .pastEnd
  | .took t rest => loop forRemote (between .after level (sql ++ t.test.sql forRemote)) rest

theorem loop_blanks_operator (str : List Char) :
    loop forRemote (atOperator f level sql) str =
      loop forRemote (atOperator f level sql) (str.dropWhile isspace) := by
  refine loop_blanks (fun c rest hc => ?_) str
  rw [step_atOperator, stepOperator, if_pos hc]

theorem loop_blanks_value (str : List Char) :
    loop forRemote (atValue f op level sql) str =
      loop forRemote (atValue f op level sql) (str.dropWhile isspace) := by
  refine loop_blanks (fun c rest hc => ?_) str
  cases hk : f.kind with
  | int => simp only [step, atValue, hk, Kind.next, stepNextIsInt, hc, if_true]
  | string => simp only [step, atValue, hk, Kind.next, stepNextIsString, hc, if_true]

theorem loop_test (str : List Char) :
    loop forRemote (between .before level sql) ('%' :: str) =
      afterTest forRemote level sql (takeTest forRemote ('%' :: str)) := by
  rw [loop_field, takeTest]
  cases hf : switchField forRemote str with
  | none => rfl
  | some p =>
    obtain ⟨f, k⟩ := p
    by_cases hk : str.length < k
    · simp only [hk, if_true, afterTest]
    simp only [hk, if_false]
    rw [loop_blanks_operator, loop_operator (head_dropWhile_isspace _)]
    cases hop : takeOperator f.kind ((str.drop k).dropWhile isspace) with
    | refused => rfl
    | pastEnd => rfl
    | took op vals =>
      have hint : f.kind = .int → f.multiline = false ∧ op.nocase = false := by
        intro hkind
        rw [hkind] at hop
        exact ⟨switchField_int hf hkind, takeOperator_int hop⟩
      rw [afterOperator, loop_blanks_value, loop_value (head_dropWhile_isspace _) hint]
      cases hv : readValue f.kind (vals.dropWhile isspace) with
      | none => simp only [hv, afterValue, afterTest]
      | some p => simp only [hv, afterValue, afterTest, Test.sql, List.append_assoc]

end NextBSD.Libpkg.Query
