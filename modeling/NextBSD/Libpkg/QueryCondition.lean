import NextBSD.Libpkg.Cstring

/-!
# Conditions of pkg query

`format_sql_condition` turns the condition of `pkg query -e` and `pkg rquery -e` into SQL.
`str` is what is left of the condition, so that `str[0]` of the empty list is the NUL.
-/

namespace NextBSD.Libpkg.Query

inductive State where
  | none
  | nextIsInt
  | operatorInt
  | int
  | nextIsString
  | operatorString
  | string
  | quotedString
  | squotedString
  | postExpr
  deriving DecidableEq, Repr

inductive Kind where
  | int
  | string
  deriving DecidableEq, Repr

def Kind.operator : Kind → State
  | .int => .operatorInt
  | .string => .operatorString

def Kind.next : Kind → State
  | .int => .nextIsInt
  | .string => .nextIsString

/-- What a case of the switch over the field does: the text that it prints, the
`pending_subquery` and the `multiline_subquery` that it sets. -/
structure Field where
  kind : Kind
  shown : String := ""
  pending : Option String := Option.none
  multiline : Bool := false
  deriving DecidableEq, Repr

def column (forRemote : Bool) : Char → Option Field
  | 'n' => some { kind := .string, shown := "p.name" }
  | 'o' => some { kind := .string, shown := "origin" }
  | 'p' => some { kind := .string, shown := "prefix" }
  | 'm' => some { kind := .string, shown := "maintainer" }
  | 'c' => some { kind := .string, shown := "comment" }
  | 'w' => some { kind := .string, shown := "www" }
  | 's' => some { kind := .int, shown := "flatsize" }
  | 'a' => if forRemote then Option.none else some { kind := .int, shown := "automatic" }
  | 'q' => some { kind := .string, shown := "arch" }
  | 'k' => if forRemote then Option.none else some { kind := .int, shown := "locked" }
  | 'M' => if forRemote then Option.none else some { kind := .string, shown := "message" }
  | 't' => if forRemote then Option.none else some { kind := .int, shown := "time" }
  | 'e' => some { kind := .string, shown := "desc" }
  | 'V' => if forRemote then Option.none else some { kind := .int, shown := "vital" }
  | _ => Option.none

/-- What `%#` and `%?` count. -/
def counted (forRemote : Bool) : Char → Option String
  | 'd' => some "deps AS d WHERE d.package_id=p.id"
  | 'r' => some "deps AS d WHERE d.name=p.name"
  | 'C' => some "pkg_categories AS d WHERE d.package_id=p.id"
  | 'F' => if forRemote then Option.none else some "files AS d WHERE d.package_id=p.id"
  | 'O' => some "pkg_option AS d WHERE d.package_id=p.id"
  | 'D' => if forRemote then Option.none else some "pkg_directories AS d WHERE d.package_id=p.id"
  | 'S' => if forRemote then Option.none else some "pkg_directories AS d WHERE d.package_id=p.id"
  | 'L' => some "pkg_licenses AS d WHERE d.package_id=p.id"
  | 'U' => if forRemote then Option.none else some "pkg_users AS d WHERE d.package_id=p.id"
  | 'G' => if forRemote then Option.none else some "pkg_groups AS d WHERE d.package_id=p.id"
  | 'B' => some "pkg_shlibs_required AS d WHERE d.package_id=p.id"
  | 'b' => some "pkg_shlibs_provided AS d WHERE d.package_id=p.id"
  | 'y' => some "pkg_provides AS d WHERE d.package_id=p.id"
  | 'Y' => some "pkg_requires AS d WHERE d.package_id=p.id"
  | 'A' => some "pkg_annotation AS d WHERE d.package_id=p.id"
  | _ => Option.none

def sqlop : Char → Option String
  | '#' => some "COUNT(*)"
  | '?' => some "COUNT(*) > 0"
  | _ => Option.none

def subquery : Char → Option String
  | 'C' => some ("SELECT * FROM categories AS c JOIN pkg_categories AS pc " ++
      "ON c.id=pc.category_id WHERE pc.package_id=p.id AND c.name")
  | 'L' => some ("SELECT * FROM licenses AS l JOIN pkg_licenses AS pl " ++
      "ON l.id=pl.license_id WHERE pl.package_id=p.id AND l.name")
  | 'B' => some ("SELECT * FROM shlibs AS s JOIN pkg_shlibs_required AS ps " ++
      "ON s.id=ps.shlib_id WHERE ps.package_id=p.id AND s.name")
  | 'b' => some ("SELECT * FROM shlibs AS s JOIN pkg_shlibs_provided AS ps " ++
      "ON s.id=ps.shlib_id WHERE ps.package_id=p.id AND s.name")
  | 'y' => some ("SELECT * FROM provides AS s JOIN pkg_provides AS ps " ++
      "ON s.id=ps.provide_id WHERE ps.package_id=p.id AND s.provide")
  | 'Y' => some ("SELECT * FROM requires AS s JOIN pkg_requires AS ps " ++
      "ON s.id=ps.require_id WHERE ps.package_id=p.id AND s.require")
  | _ => Option.none

/-- The second letters after `%d`. -/
def depSubquery : Char → Option String
  | 'n' => some "SELECT * FROM deps AS d WHERE d.package_id=p.id AND name"
  | 'o' => some "SELECT * FROM deps AS d WHERE d.package_id=p.id AND origin"
  | 'v' => some "SELECT * FROM deps AS d WHERE d.package_id=p.id AND version"
  | _ => Option.none

/-- The second letters after `%r`. -/
def rdepSubquery : Char → Option String
  | 'n' => some ("SELECT * FROM packages AS p2 JOIN deps AS d " ++
      "ON d.package_id=p2.id WHERE d.name=p.name AND p2.name")
  | 'o' => some ("SELECT * FROM packages AS p2 JOIN deps AS d " ++
      "ON d.package_id=p2.id WHERE d.name=p.name AND p2.origin")
  | 'v' => some ("SELECT * FROM packages AS p2 JOIN deps AS d " ++
      "ON d.package_id=p2.id WHERE d.name=p.name AND p2.version")
  | _ => Option.none

/-- The second letters after `%A`. -/
def annotationSubquery : Char → Option String
  | 't' => some ("SELECT * FROM annotation AS a JOIN pkg_annotation AS pa " ++
      "ON a.annotation_id=pa.tag_id WHERE pa.package_id=p.id AND a.annotation")
  | 'v' => some ("SELECT * FROM annotation AS a JOIN pkg_annotation AS pa " ++
      "ON a.annotation_id=pa.value_id WHERE pa.package_id=p.id AND a.annotation")
  | _ => Option.none

def pairSubquery : Char → Option (Char → Option String)
  | 'd' => some depSubquery
  | 'r' => some rdepSubquery
  | 'A' => some annotationSubquery
  | _ => Option.none

/-- The switch over what follows the `%`, with the number of letters that it takes.  `none`
is `bad_option`. -/
def switchField (forRemote : Bool) : List Char → Option (Field × Nat)
  | [] => Option.none
  | c :: rest =>
    match column forRemote c with
    | some f => some (f, 1)
    | Option.none =>
    match sqlop c with
    | some op => (rest.head?.bind (counted forRemote)).map fun t =>
        ({ kind := .int, shown := "(SELECT " ++ op ++ " FROM " ++ t ++ ")" }, 2)
    | Option.none =>
    match pairSubquery c with
    -- a second letter that is not listed leaves the subquery as it is
    | some second => some ({ kind := .string, pending := rest.head?.bind second,
                             multiline := true }, 2)
    | Option.none => (subquery c).map fun t =>
        ({ kind := .string, pending := some t, multiline := true }, 1)

/-- The local variables of `format_sql_condition`. -/
structure Scanner where
  state : State := .none
  bracketLevel : Nat := 0
  collateNocase : Bool := false
  multilineSubquery : Bool := false
  pendingSubquery : Option String := Option.none
  sqlcond : List Char := []
  deriving DecidableEq, Repr

/-- How the function ends: with the SQL, with `EPKG_FATAL`, or reading behind the NUL. -/
inductive Outcome where
  | ok (sqlcond : List Char)
  | fatal
  | pastEnd
  deriving DecidableEq, Repr

/-- A round of the loop on `str[0]`: it returns `EPKG_FATAL`, or goes on `k` characters behind
the next one, or goes on at the same one (`str--`). -/
inductive Step where
  | fatal
  | next (q : Scanner) (k : Nat)
  | again (q : Scanner)

def Scanner.print (q : Scanner) (t : List Char) : Scanner := { q with sqlcond := q.sqlcond ++ t }

def stepNone (forRemote : Bool) (q : Scanner) (c : Char) (rest : List Char) : Step :=
  if c = '%' then
    match switchField forRemote rest with
    | Option.none => .fatal
    | some (f, k) =>
      .next { q.print f.shown.toList with
        pendingSubquery := f.pending.or q.pendingSubquery
        multilineSubquery := f.multiline || q.multilineSubquery
        state := f.kind.operator } k
  else if c = '(' then
    .next { q.print [c] with bracketLevel := (q.bracketLevel + 1) % 2 ^ 32 } 0
  else if c = ' ' ∨ c = '\t' then .next q 0
  else .fatal

def stepPostExpr (q : Scanner) (c : Char) (rest : List Char) : Step :=
  if c = ')' then
    if q.bracketLevel = 0 then .fatal
    else .next { q.print [c] with bracketLevel := q.bracketLevel - 1 } 0
  else if c = ' ' ∨ c = '\t' then .next q 0
  else if c = '|' then
    if rest.head? = some '|' then .next { q.print " OR ".toList with state := .none } 1
    else .fatal
  else if c = '&' then
    if rest.head? = some '&' then .next { q.print " AND ".toList with state := .none } 1
    else .fatal
  else .fatal

/-- `EXISTS (` and the pending subquery, before an operator. -/
def Scanner.exists (q : Scanner) : Scanner :=
  match q.pendingSubquery with
  | some sub => { q.print ("EXISTS (".toList ++ sub.toList) with pendingSubquery := Option.none }
  | Option.none => q

def negatedText (pending : Option String) (c : Option Char) : Option (List Char) :=
  match pending, c with
  | some sub, some '=' => some ("NOT EXISTS (".toList ++ sub.toList ++ "=".toList)
  | some sub, some '~' => some ("NOT EXISTS (".toList ++ sub.toList ++ " GLOB ".toList)
  | Option.none, some '=' => some "!=".toList
  | Option.none, some '~' => some " NOT GLOB ".toList
  | _, _ => Option.none

def stepOperator (kind : Kind) (q : Scanner) (c : Char) (rest : List Char) : Step :=
  if isspace c then .next q 0
  else if c = '~' then
    if kind ≠ .string then .fatal
    else .next { q.exists.print " GLOB ".toList with state := .nextIsString } 0
  else if c = '>' ∨ c = '<' then
    if kind ≠ .int then .fatal
    else if rest.head? = some '=' then
      .next { q.exists.print [c, '='] with state := .nextIsInt } 1
    else .next { q.exists.print [c] with state := .nextIsInt } 0
  else if c = '=' then
    if rest.head? = some '=' then .next { q.exists.print [c] with state := kind.next } 1
    else if rest.head? = some '~' ∧ kind = .string then
      .next { q.exists.print [c] with state := kind.next, collateNocase := true } 1
    else .next { q.exists.print [c] with state := kind.next } 0
  else if c = '!' then
    match negatedText q.pendingSubquery rest.head? with
    | Option.none => .fatal
    | some t =>
      -- `str` has come to the character after the `!` when it is compared with `~`
      if rest.head? = some '~' ∧ kind = .string then
        .next { q.print t with
          pendingSubquery := Option.none, state := kind.next, collateNocase := true } 2
      else .next { q.print t with pendingSubquery := Option.none, state := kind.next } 1
  else .fatal

def stepNextIsString (q : Scanner) (c : Char) : Step :=
  if isspace c then .next q 0
  else if c = '"' then .next { q.print ['\''] with state := .quotedString } 0
  else if c = '\'' then .next { q.print ['\''] with state := .squotedString } 0
  else .again { q.print ['\''] with state := .string }

def stepNextIsInt (q : Scanner) (c : Char) : Step :=
  if isspace c then .next q 0
  else if c.isDigit then .next { q.print [c] with state := .int } 0
  else .fatal

def stepInt (q : Scanner) (c : Char) : Step :=
  if c.isDigit then .next (q.print [c]) 0
  else if q.multilineSubquery then
    .again { q.print [')'] with state := .postExpr, multilineSubquery := false }
  else .again { q with state := .postExpr }

def Scanner.closeString (q : Scanner) : Scanner :=
  { q.print ('\'' :: (if q.collateNocase then " COLLATE NOCASE ".toList else []) ++
      (if q.multilineSubquery then [')'] else [])) with
    state := .postExpr
    collateNocase := false
    multilineSubquery := false }

def isDoubled (forRemote : Bool) (c : Char) : Bool := c = '\'' || (c = '%' && forRemote)

/-- The states `STRING`, `QUOTEDSTRING` and `SQUOTEDSTRING`, with the characters at which
they end. -/
def stepString (forRemote : Bool) (ends : Char → Bool) (q : Scanner) (c : Char) : Step :=
  if ends c then .next q.closeString 0
  else if isDoubled forRemote c then .next (q.print [c, c]) 0
  else .next (q.print [c]) 0

def step (forRemote : Bool) (q : Scanner) (c : Char) (rest : List Char) : Step :=
  match q.state with
  | .none => stepNone forRemote q c rest
  | .postExpr => stepPostExpr q c rest
  | .operatorString => stepOperator .string q c rest
  | .operatorInt => stepOperator .int q c rest
  | .nextIsString => stepNextIsString q c
  | .nextIsInt => stepNextIsInt q c
  | .int => stepInt q c
  | .string => stepString forRemote isspace q c
  | .quotedString => stepString forRemote (· = '"') q c
  | .squotedString => stepString forRemote (· = '\'') q c

def finish (q : Scanner) : Outcome :=
  let q := if q.state = .string then q.closeString else q
  if q.state ≠ .postExpr ∧ q.state ≠ .int then .fatal
  else if q.bracketLevel > 0 then .fatal
  else .ok q.sqlcond

def State.rank : State → Nat
  | .nextIsString => 1
  | .int => 1
  | _ => 0

theorem rank_le (s : State) : s.rank ≤ 1 := by
  cases s <;> decide

theorem rank_of_again {forRemote : Bool} {q q' : Scanner} {c : Char} {rest : List Char}
    (h : step forRemote q c rest = .again q') : q'.state.rank < q.state.rank := by
  cases hs : q.state <;> simp only [step, hs] at h
  case none =>
    simp only [stepNone] at h
    split_ifs at h
    split at h <;> cases h
  case postExpr =>
    simp only [stepPostExpr] at h
    split_ifs at h
  case operatorString | operatorInt =>
    simp only [stepOperator] at h
    split_ifs at h <;> split at h <;> cases h
  case nextIsString =>
    simp only [stepNextIsString] at h
    split_ifs at h
    cases h
    exact Nat.one_pos
  case nextIsInt =>
    simp only [stepNextIsInt] at h
    split_ifs at h
  case int =>
    simp only [stepInt] at h
    split_ifs at h <;> cases h <;> exact Nat.one_pos
  case string | quotedString | squotedString =>
    simp only [stepString] at h
    split_ifs at h

/-- The loop from `str` on.  The pointer passes the NUL when it moves more characters than
there are. -/
@[grind =]
def loop (forRemote : Bool) (q : Scanner) (str : List Char) : Outcome :=
  match str with
  | [] => finish q
  | c :: rest =>
    match _h : step forRemote q c rest with
    | .fatal => .fatal
    | .again q' => loop forRemote q' (c :: rest)
    | .next q' k => if rest.length < k then .pastEnd else loop forRemote q' (rest.drop k)
  termination_by 2 * str.length + q.state.rank
  decreasing_by
  · exact Nat.add_lt_add_left (rank_of_again (by assumption)) _
  · have hrank := rank_le q'.state
    rw [List.length_drop, List.length_cons]
    omega

def formatSqlCondition (str sqlcond : List Char) (forRemote : Bool) : Outcome :=
  loop forRemote { sqlcond := sqlcond ++ " WHERE ".toList } str

example : formatSqlCondition "%n ~ \"a'b%\" && (%s>=10)".toList [] true =
    .ok " WHERE p.name GLOB 'a''b%%' AND (flatsize>=10)".toList := by
  decide +kernel

end NextBSD.Libpkg.Query
