import NextBSD.Libpkg.Cstring

/-!
# pkg_deps.c: parsing a dependency formula

The automaton of `pkg_deps_parse_formula`, one round of its loop at a time.
-/

namespace NextBSD.Libpkg.Deps

inductive VersionOp where
  | any | eq | ge | le | lt | gt | not
  deriving DecidableEq, Repr

structure VersionItem where
  ver : List Char
  op : VersionOp
  deriving DecidableEq, Repr

structure OptionItem where
  opt : List Char
  on : Bool
  deriving DecidableEq, Repr

structure FormulaItem where
  name : List Char
  versions : List VersionItem := []
  options : List OptionItem := []
  deriving DecidableEq, Repr

inductive State where
  | depName | afterName | verOp | afterOp | versionNumber | afterVersion | optionStart | option
  | afterOption | comma | or | skipSpaces | error
  deriving DecidableEq, Repr

/-- The local variables.  `rest` is the string from `p` on, where no character is left at the final
`NUL`, and `tok` is what stands between `c` and `p`. -/
structure Parser where
  state : State := .depName
  next : State := .depName
  rest : List Char
  tok : List Char := []
  op : VersionOp := .any
  on : Bool := false
  name : Option (List Char) := none
  versions : List VersionItem := []
  options : List OptionItem := []
  items : List FormulaItem := []
  res : List (List FormulaItem) := []
  deriving DecidableEq, Repr

/-- Where a round of the loop leads: to another one, out with `NULL`, or out with the result. -/
inductive Step where
  | running (st : Parser)
  | failed
  | finished (res : List (List FormulaItem))
  deriving DecidableEq, Repr

def isprint (c : Char) : Bool := 32 ≤ c.toNat && c.toNat ≤ 126

def isOpChar (c : Char) : Bool := c = '>' || c = '<' || c = '=' || c = '!'

def isOptionChar (c : Char) : Bool := c.isAlphanum || c = '-' || c = '_'

def isVersionChar (c : Char) (t : List Char) : Bool :=
  c.isAlphanum || c = '-' || c = '_' || c = '.' || (c = ',' && t.head?.any Char.isDigit)

/-- The operators that `st_parse_ver_op` knows. -/
def operator (text : List Char) : Option VersionOp :=
  match text with
  | ['>', '='] => some .ge
  | ['<', '='] => some .le
  | ['!', '='] => some .not
  | ['=', '='] => some .eq
  | ['>'] => some .gt
  | ['<'] => some .lt
  | ['!'] => some .not
  | ['='] => some .eq
  | _ => none

def Parser.advance (st : Parser) (c : Char) (rest : List Char) : Parser :=
  { st with rest := rest, tok := st.tok ++ [c] }

def Parser.skipThen (st : Parser) (next : State) : Parser :=
  { st with state := .skipSpaces, next := next }

/-- What stands between `c` and `p` is the version of a constraint of `cur_item`. -/
def Parser.pushVersion (st : Parser) : Parser :=
  { st with versions := st.versions ++ [{ ver := st.tok, op := st.op }] }

def Parser.pushOption (st : Parser) : Parser :=
  { st with options := st.options ++ [{ opt := st.tok, on := st.on }] }

def Parser.pushItem (st : Parser) (name : List Char) : List FormulaItem :=
  st.items ++ [{ name := name, versions := st.versions, options := st.options }]

/-- The state of the loop after `st_parse_after_name` and its like. -/
def afterState (st : Parser) : Parser :=
  match st.rest with
  | [] => { st with state := .comma }
  | c :: _ =>
    if c = ',' then { st with state := .comma }
    else if c = '|' then { st with state := .or }
    else if c = '+' ∨ c = '-' then { st with tok := [], state := .optionStart }
    else if isOpChar c then { st with tok := [], op := .any, state := .verOp }
    else { st with state := .error }

/-- One round of the loop of `pkg_deps_parse_formula`. -/
def step (st : Parser) : Step :=
  match st.state with
  | .depName =>
    match st.rest with
    | [] =>
      if st.tok = [] then .running (st.skipThen .depName)
      else .running ({ st with name := some st.tok }.skipThen .afterName)
    | c :: rest =>
      if isspace c then
        if st.tok = [] then .running (st.skipThen .depName)
        else .running ({ st with name := some st.tok }.skipThen .afterName)
      else if c = ',' then
        if st.tok = [] then .running { st with state := .error }
        else .running { st with name := some st.tok, state := .afterName }
      else if isprint c then .running (st.advance c rest)
      else .running { st with state := .error }
  | .afterName => .running (afterState st)
  | .afterVersion => .running (afterState st)
  | .afterOption => .running (afterState st)
  | .verOp =>
    match st.rest with
    | [] =>
      match operator st.tok with
      | some op => .running ({ st with op := op }.skipThen .afterOp)
      | none => .running { st with state := .error }
    | c :: rest =>
      if isOpChar c then .running (st.advance c rest)
      else
        match operator st.tok with
        | some op => .running ({ st with op := op }.skipThen .afterOp)
        | none => .running { st with state := .error }
  | .afterOp =>
    if st.op = .any then .running { st with state := .error }
    else .running { st with state := .versionNumber }
  | .versionNumber =>
    match st.rest with
    | [] =>
      if st.tok = [] ∨ st.name = none then .running { st with state := .error }
      else .running (st.pushVersion.skipThen .afterVersion)
    | c :: rest =>
      if isVersionChar c rest then .running (st.advance c rest)
      else if st.tok = [] ∨ st.name = none then .running { st with state := .error }
      else .running (st.pushVersion.skipThen .afterVersion)
  | .optionStart =>
    match st.rest with
    | [] => .running { st with state := .error }
    | c :: rest =>
      .running { st with on := c = '+', rest := rest, tok := [], state := .option }
  | .option =>
    match st.rest with
    | [] =>
      if st.tok = [] ∨ st.name = none then .running { st with state := .error }
      else .running (st.pushOption.skipThen .afterOption)
    | c :: rest =>
      if isOptionChar c then .running (st.advance c rest)
      else if st.tok = [] ∨ st.name = none then .running { st with state := .error }
      else .running (st.pushOption.skipThen .afterOption)
  | .comma =>
    match st.name with
    | none => .running { st with state := .error }
    | some name =>
      let res := st.res ++ [st.pushItem name]
      match st.rest with
      -- `p` is now behind the end, so the loop is left in `st_skip_spaces`
      | [] => .finished res
      | _ :: rest =>
        .running { st with
          rest := rest, name := none, versions := [], options := [], items := [], res := res
          state := .skipSpaces, next := .depName }
  | .or =>
    match st.name with
    | none => .running { st with state := .error }
    | some name =>
      .running { st with
        rest := st.rest.tail, name := none, versions := [], options := []
        items := st.pushItem name, state := .skipSpaces, next := .depName }
  | .skipSpaces =>
    match st.rest with
    | [] => .running { st with state := .comma }
    | c :: rest =>
      if isspace c then .running (st.advance c rest)
      else .running { st with tok := [], state := st.next }
  | .error => .failed

def run : Nat → Parser → Option Step
  | 0, _ => none
  | rounds + 1, st =>
    match step st with
    | .running st => run rounds st
    | out => some out

/-- `pkg_deps_parse_formula`, in at most so many rounds. -/
def pkgDepsParseFormula (rounds : Nat) (s : List Char) : Option Step :=
  if s = [] then some .failed else run rounds { rest := s }

example : pkgDepsParseFormula 50 "a >= 1 |b".toList =
    some (.finished [[{ name := ['a'], versions := [{ ver := ['1'], op := .ge }] },
      { name := ['b'] }]]) := by decide +kernel

example : pkgDepsParseFormula 50 "a >= ".toList = some (.finished [[{ name := ['a'] }]]) := by
  decide +kernel

end NextBSD.Libpkg.Deps

/-!
## The grammar of dependency formulas

What a text of formulas is, with its longest tokens.
`Ending.dangling` is for the texts whose last token is an operator.
-/

namespace NextBSD.Libpkg.Deps

inductive Ending where
  | whole | dangling
  deriving DecidableEq, Repr

def isNameChar (c : Char) : Bool := isprint c && !isspace c && c ≠ ','

def versionSpan : List Char → List Char × List Char
  | [] => ([], [])
  | c :: t =>
    if isVersionChar c t then (c :: (versionSpan t).1, (versionSpan t).2) else ([], c :: t)

/-- The text starts with these constraints and options, as far as a separator or the end. -/
inductive Constraints :
    Ending → List Char → List VersionItem → List OptionItem → List Char → Prop
  | done {s : List Char} (h : ∀ c ∈ s.head?, c = ',' ∨ c = '|') : Constraints .whole s [] [] s
  | dangling {s : List Char} {op : VersionOp} (hop : operator (s.takeWhile isOpChar) = some op)
      (hend : (s.dropWhile isOpChar).dropWhile isspace = []) : Constraints .dangling s [] [] []
  | version {s u r rest ver : List Char} {op : VersionOp} {e : Ending} {versions : List VersionItem}
      {options : List OptionItem} (hop : operator (s.takeWhile isOpChar) = some op)
      (hu : (s.dropWhile isOpChar).dropWhile isspace = u) (hver : versionSpan u = (ver, r))
      (hne : ver ≠ []) (h : Constraints e (r.dropWhile isspace) versions options rest) :
      Constraints e s ({ ver := ver, op := op } :: versions) options rest
  | option {c : Char} {t rest opt : List Char} {e : Ending} {versions : List VersionItem}
      {options : List OptionItem} (hc : c = '+' ∨ c = '-') (hopt : t.takeWhile isOptionChar = opt)
      (hne : opt ≠ [])
      (h : Constraints e ((t.dropWhile isOptionChar).dropWhile isspace) versions options rest) :
      Constraints e (c :: t) versions ({ opt := opt, on := c = '+' } :: options) rest

structure Item (e : Ending) (s : List Char) (item : FormulaItem) (rest : List Char) : Prop where
  name : s.takeWhile isNameChar = item.name
  name_ne : item.name ≠ []
  follows : ∀ c ∈ (s.dropWhile isNameChar).head?, isspace c = true ∨ c = ','
  constraints :
    Constraints e ((s.dropWhile isNameChar).dropWhile isspace) item.versions item.options rest

/-- The text is a list of formulas that commas separate, each a list of alternatives. -/
inductive Formulas : Ending → List Char → List (List FormulaItem) → Prop
  | last {s : List Char} {e : Ending} {item : FormulaItem}
      (h : Item e (s.dropWhile isspace) item []) : Formulas e s [[item]]
  | comma {s t : List Char} {e : Ending} {item : FormulaItem} {fs : List (List FormulaItem)}
      (h : Item .whole (s.dropWhile isspace) item (',' :: t)) (ht : Formulas e t fs) :
      Formulas e s ([item] :: fs)
  | or {s t : List Char} {e : Ending} {item : FormulaItem} {f : List FormulaItem}
      {fs : List (List FormulaItem)} (h : Item .whole (s.dropWhile isspace) item ('|' :: t))
      (ht : Formulas e t (f :: fs)) : Formulas e s ((item :: f) :: fs)

def EndsInOperator (s : List Char) : Prop := ∃ fs, Formulas .dangling s fs

/-! Characters. -/

theorem isOpChar_iff {c : Char} : isOpChar c = true ↔ c = '>' ∨ c = '<' ∨ c = '=' ∨ c = '!' := by
  simp [isOpChar, or_assoc]

theorem operator_nil : operator [] = none := rfl

theorem operator_ne_any {text : List Char} {op : VersionOp} (h : operator text = some op) :
    op ≠ .any := by
  unfold operator at h
  split at h <;> simp_all <;> (rw [← h]; decide)

theorem exists_of_operator {s : List Char} {op : VersionOp}
    (h : operator (s.takeWhile isOpChar) = some op) :
    ∃ c t, s = c :: t ∧ isOpChar c = true := by
  cases s with
  | nil => rw [List.takeWhile_nil, operator_nil] at h; cases h
  | cons c t =>
    by_cases hc : isOpChar c = true
    · exact ⟨c, t, rfl, hc⟩
    · rw [List.takeWhile_cons_of_neg hc, operator_nil] at h; cases h

theorem not_isOpChar_of_sign {c : Char} (h : c = '+' ∨ c = '-') : isOpChar c = false := by
  rcases h with rfl | rfl <;> decide

theorem length_versionSpan (s : List Char) :
    (versionSpan s).1.length + (versionSpan s).2.length = s.length := by
  induction s with
  | nil => rfl
  | cons c t ih =>
    unfold versionSpan
    split
    · simp only [List.length_cons]; omega
    · simp

/-! The tokens are determined by the text. -/

theorem not_operator_of_sign {c : Char} {t : List Char} {op : VersionOp} (hc : c = '+' ∨ c = '-') :
    operator ((c :: t).takeWhile isOpChar) ≠ some op := by
  intro h
  obtain ⟨c', t', heq, hop⟩ := exists_of_operator h
  rw [← (List.cons.inj heq).1, not_isOpChar_of_sign hc] at hop
  cases hop

theorem not_operator_of_separator {s : List Char} {op : VersionOp}
    (hs : ∀ c ∈ s.head?, c = ',' ∨ c = '|') : operator (s.takeWhile isOpChar) ≠ some op := by
  intro h
  obtain ⟨c, t, rfl, hop⟩ := exists_of_operator h
  rcases hs c rfl with rfl | rfl <;> exact absurd hop (by decide)

theorem Constraints.unique {s : List Char} {e e' : Ending} {vs vs' : List VersionItem}
    {os os' : List OptionItem} {rest rest' : List Char} (h : Constraints e s vs os rest)
    (h' : Constraints e' s vs' os' rest') : e = e' ∧ rest = rest' := by
  induction h generalizing e' vs' os' rest' with
  | done hs =>
    cases h' with
    | done => exact ⟨rfl, rfl⟩
    | dangling hop => exact absurd hop (not_operator_of_separator hs)
    | version hop => exact absurd hop (not_operator_of_separator hs)
    | option hc => rcases hs _ rfl with rfl | rfl <;> exact absurd hc (by decide)
  | dangling hop hend =>
    cases h' with
    | done hs => exact absurd hop (not_operator_of_separator hs)
    | dangling => exact ⟨rfl, rfl⟩
    | version hop' hu hver hne =>
      rw [hend] at hu
      rw [← hu] at hver
      exact absurd (Prod.mk.inj hver).1.symm hne
    | option hc => exact absurd hop (not_operator_of_sign hc)
  | version hop hu hver hne _ ih =>
    cases h' with
    | done hs => exact absurd hop (not_operator_of_separator hs)
    | dangling hop' hend =>
      rw [hend] at hu
      rw [← hu] at hver
      exact absurd (Prod.mk.inj hver).1.symm hne
    | version hop' hu' hver' hne' h' =>
      rw [← hu', hu, hver] at hver'
      rw [← (Prod.mk.inj hver').2] at h'
      exact ih h'
    | option hc => exact absurd hop (not_operator_of_sign hc)
  | option hc hopt hne _ ih =>
    cases h' with
    | done hs => rcases hs _ rfl with rfl | rfl <;> exact absurd hc (by decide)
    | dangling hop => exact absurd hop (not_operator_of_sign hc)
    | version hop => exact absurd hop (not_operator_of_sign hc)
    | option _ _ _ h' => exact ih h'

theorem Item.unique {s rest rest' : List Char} {e e' : Ending} {item item' : FormulaItem}
    (h : Item e s item rest) (h' : Item e' s item' rest') : e = e' ∧ rest = rest' :=
  h.constraints.unique h'.constraints

theorem Formulas.ending {s : List Char} {e e' : Ending} {fs fs' : List (List FormulaItem)}
    (h : Formulas e s fs) (h' : Formulas e' s fs') : e = e' := by
  induction h generalizing e' fs' with
  | last hi =>
    cases h' with
    | last hi' => exact (hi.unique hi').1
    | comma hi' => cases (hi.unique hi').2
    | or hi' => cases (hi.unique hi').2
  | comma hi _ ih =>
    cases h' with
    | last hi' => cases (hi.unique hi').2
    | comma hi' h' =>
      cases (hi.unique hi').2
      exact ih h'
    | or hi' => exact absurd (List.cons.inj (hi.unique hi').2).1 (by decide)
  | or hi _ ih =>
    cases h' with
    | last hi' => cases (hi.unique hi').2
    | comma hi' => exact absurd (List.cons.inj (hi.unique hi').2).1 (by decide)
    | or hi' h' =>
      cases (hi.unique hi').2
      exact ih h'

end NextBSD.Libpkg.Deps
