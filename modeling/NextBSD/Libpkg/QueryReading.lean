import NextBSD.Library.QuotedText
import NextBSD.Libpkg.QueryCondition

/-!
# How a condition of pkg query is read

The grammar of the conditions as pkg-query(8) gives it, and the SQL of what has been read.
The brackets, the connectives and the tests are the pieces of a condition.  A second reader of
single tests takes them as `format_sql_condition` does.
-/

namespace NextBSD.Libpkg.Query

open QuotedText

inductive Place where
  | before
  | after
  deriving DecidableEq, Repr

inductive Piece (τ : Type) where
  | opening
  | closing
  | or
  | and
  | test (t : τ)

variable {τ : Type}

/-- The pieces of a text, with blanks between them: `read` takes a test off the text and `stop`
says where a text may end. -/
inductive Reads (read : List Char → Option (τ × List Char)) (stop : Place → List Char → Prop) :
    Place → List Char → List (Piece τ) → Prop where
  | stop {p : Place} {str : List Char} (h : stop p str) : Reads read stop p str []
  | blank {p : Place} {c : Char} {str : List Char} {ps : List (Piece τ)}
      (hc : c = ' ' ∨ c = '\t') (h : Reads read stop p str ps) : Reads read stop p (c :: str) ps
  | opening {str : List Char} {ps : List (Piece τ)} (h : Reads read stop .before str ps) :
      Reads read stop .before ('(' :: str) (.opening :: ps)
  | test {str rest : List Char} {t : τ} {ps : List (Piece τ)} (ht : read str = some (t, rest))
      (h : Reads read stop .after rest ps) : Reads read stop .before str (.test t :: ps)
  | closing {str : List Char} {ps : List (Piece τ)} (h : Reads read stop .after str ps) :
      Reads read stop .after (')' :: str) (.closing :: ps)
  | or {str : List Char} {ps : List (Piece τ)} (h : Reads read stop .before str ps) :
      Reads read stop .after ('|' :: '|' :: str) (.or :: ps)
  | and {str : List Char} {ps : List (Piece τ)} (h : Reads read stop .before str ps) :
      Reads read stop .after ('&' :: '&' :: str) (.and :: ps)

def AtEnd (p : Place) (str : List Char) : Prop := p = .after ∧ str = []

/-- The brackets that are open behind the pieces, where `up` counts one more. -/
def openBrackets (up : Nat → Nat) : Nat → List (Piece τ) → Option Nat
  | n, [] => some n
  | n, .opening :: ps => openBrackets up (up n) ps
  | 0, .closing :: _ => none
  | n + 1, .closing :: ps => openBrackets up n ps
  | n, .or :: ps => openBrackets up n ps
  | n, .and :: ps => openBrackets up n ps
  | n, .test _ :: ps => openBrackets up n ps

def nextLevel (n : Nat) : Nat := (n + 1) % 2 ^ 32

/-! ## Tests -/

inductive Operator where
  | glob (negated nocase : Bool)
  | less (orEqual : Bool)
  | greater (orEqual : Bool)
  | equal (negated nocase : Bool)
  deriving DecidableEq, Repr

inductive Value where
  | number (digits : List Char)
  | text (chars : List Char)
  deriving DecidableEq, Repr

structure Test where
  field : Field
  operator : Operator
  value : Value
  deriving DecidableEq, Repr

def Operator.negated : Operator → Bool
  | .glob negated _ => negated
  | .equal negated _ => negated
  | _ => false

def Operator.nocase : Operator → Bool
  | .glob _ nocase => nocase
  | .equal _ nocase => nocase
  | _ => false

def Operator.plain : Operator → List Char
  | .glob _ _ => " GLOB ".toList
  | .less orEqual => if orEqual then "<=".toList else "<".toList
  | .greater orEqual => if orEqual then ">=".toList else ">".toList
  | .equal _ _ => "=".toList

def Operator.sql (op : Operator) : List Char :=
  match op with
  | .glob true _ => " NOT GLOB ".toList
  | .equal true _ => "!=".toList
  | _ => op.plain

/-- What is printed for an operator.  A subquery comes with it, as what some row or no row has
to satisfy. -/
def operatorText (f : Field) (op : Operator) : List Char :=
  match f.pending with
  | none => op.sql
  | some sub => (if op.negated then "NOT EXISTS (".toList else "EXISTS (".toList) ++
      sub.toList ++ op.plain

def Value.sql (forRemote : Bool) : Value → List Char
  | .number digits => digits
  | .text chars => '\'' :: (double (isDoubled forRemote) chars ++ ['\''])

def collation (nocase : Bool) : List Char := if nocase then " COLLATE NOCASE ".toList else []

def closing (multiline : Bool) : List Char := if multiline then [')'] else []

def Test.sql (forRemote : Bool) (t : Test) : List Char :=
  t.field.shown.toList ++ (operatorText t.field t.operator ++
    (t.value.sql forRemote ++ (collation t.operator.nocase ++ closing t.field.multiline)))

def Piece.sql (testSql : τ → List Char) : Piece τ → List Char
  | .opening => ['(']
  | .closing => [')']
  | .or => " OR ".toList
  | .and => " AND ".toList
  | .test t => testSql t

def sqlOf (testSql : τ → List Char) (ps : List (Piece τ)) : List Char :=
  ps.flatMap (Piece.sql testSql)

/-- The operators of pkg-query(8), and `==~`, which came together with `=~` and `!=~`.  Only
`~` is kept from numbers. -/
def readOperator : Kind → List Char → Option (Operator × List Char)
  | .string, '~' :: str => some (.glob false false, str)
  | _, '!' :: '~' :: str => some (.glob true false, str)
  | .string, '!' :: '=' :: '~' :: str => some (.equal true true, str)
  | _, '!' :: '=' :: str => some (.equal true false, str)
  | .string, '=' :: '=' :: '~' :: str => some (.equal false true, str)
  | _, '=' :: '=' :: str => some (.equal false false, str)
  | .string, '=' :: '~' :: str => some (.equal false true, str)
  | _, '=' :: str => some (.equal false false, str)
  | .int, '<' :: '=' :: str => some (.less true, str)
  | .int, '<' :: str => some (.less false, str)
  | .int, '>' :: '=' :: str => some (.greater true, str)
  | .int, '>' :: str => some (.greater false, str)
  | _, _ => none

def readQuoted (quote : Char) (str : List Char) : Option (Value × List Char) :=
  match str.dropWhile (· ≠ quote) with
  | [] => none
  | _ :: rest => some (.text (str.takeWhile (· ≠ quote)), rest)

/-- A value: a number, a text between quotes, or a text up to the next blank. -/
def readValue : Kind → List Char → Option (Value × List Char)
  | _, [] => none
  | .int, c :: str =>
    if c.isDigit then
      some (.number ((c :: str).takeWhile Char.isDigit), (c :: str).dropWhile Char.isDigit)
    else none
  | .string, c :: str =>
    if c = '"' ∨ c = '\'' then readQuoted c str
    else some (.text ((c :: str).takeWhile (!isspace ·)),
      ((c :: str).dropWhile (!isspace ·)).tail)

/-- A test of pkg-query(8): a known field, an operator and a value, with blanks
between them. -/
def readTest (forRemote : Bool) : List Char → Option (Test × List Char)
  | '%' :: str =>
    match switchField forRemote str with
    | none => none
    | some (f, k) =>
      if f.multiline && f.pending.isNone then none
      else
        match readOperator f.kind ((str.drop k).dropWhile isspace) with
        | none => none
        | some (op, vals) =>
          (readValue f.kind (vals.dropWhile isspace)).map fun p => (⟨f, op, p.1⟩, p.2)
  | _ => none

/-- What comes of a text: something is taken off it, it is refused, or it is left behind its
end. -/
inductive Taken (α : Type) where
  | took (a : α) (rest : List Char)
  | refused
  | pastEnd

/-- The operators as they are taken.  With `!~` the cases are folded and the next character
is lost, the `~` of `!=~` and `==~` is left to the value. -/
def takeOperator : Kind → List Char → Taken Operator
  | .string, ['!', '~'] => .pastEnd
  | .string, '!' :: '~' :: _ :: str => .took (.glob true true) str
  | .string, '!' :: '=' :: str => .took (.equal true false) str
  | .string, '=' :: '=' :: str => .took (.equal false false) str
  | kind, str =>
    match readOperator kind str with
    | none => .refused
    | some (op, str) => .took op str

def misreadOperator (kind : Kind) (str : List Char) : Bool :=
  kind = .string && ("!~".toList.isPrefixOf str || "!=~".toList.isPrefixOf str ||
    "==~".toList.isPrefixOf str)

/-- A test that was taken off a condition.  It is misread when the second letter of its field
is none of those that the first one can have, or when its operator is taken for another. -/
structure TakenTest where
  test : Test
  misread : Bool
  deriving DecidableEq, Repr

def takeTest (forRemote : Bool) : List Char → Taken TakenTest
  | '%' :: str =>
    match switchField forRemote str with
    | none => .refused
    | some (f, k) =>
      if str.length < k then .pastEnd
      else
        match takeOperator f.kind ((str.drop k).dropWhile isspace) with
        | .refused => .refused
        | .pastEnd => .pastEnd
        | .took op vals =>
          match readValue f.kind (vals.dropWhile isspace) with
          | none => .refused
          | some (v, rest) => .took
            { test := ⟨f, op, v⟩
              misread := (f.multiline && f.pending.isNone) ||
                misreadOperator f.kind ((str.drop k).dropWhile isspace) } rest
  | _ => .refused

def takenTest (forRemote : Bool) (str : List Char) : Option (TakenTest × List Char) :=
  match takeTest forRemote str with
  | .took t rest => some (t, rest)
  | _ => none

/-- A test behind whose end the reading goes on: a field without its second letter, or `!~`
at the end. -/
def RunsOff (forRemote : Bool) (p : Place) (str : List Char) : Prop :=
  p = .before ∧ ∃ body, str = '%' :: body ∧
    ((∃ c ∈ ['d', 'r', 'A'], body = [c]) ∨
      ∃ f k, switchField forRemote body = some (f, k) ∧ f.kind = .string ∧ k ≤ body.length ∧
        (body.drop k).dropWhile isspace = ['!', '~'])

def sqlMarks : Marks Char := { quote := '\'', opening := '(', closing := ')' }

/-- `sql` is the value: its digits, or one quoted literal that stands for its text. -/
def Value.Denotes (forRemote : Bool) (sql : List Char) : Value → Prop
  | .number digits => sql = digits ∧ digits ≠ [] ∧ ∀ c ∈ digits, c.isDigit = true
  | .text chars => ∃ body, sql = '\'' :: (body ++ ['\'']) ∧
      afterLiteral '\'' (body ++ ['\'']) = some [] ∧
      undouble (isDoubled forRemote) body = some chars

/-- The condition is not read behind its end, and the SQL that is appended for it has matching
brackets and consists of its pieces as the grammar has them. -/
structure Faithful (forRemote : Bool) (str sqlcond : List Char) (o : Outcome) : Prop where
  inside : o ≠ .pastEnd
  translated : ∀ out, o = .ok out → ∃ (sql : List Char) (ps : List (Piece Test)),
    out = sqlcond ++ sql ∧ Reads (readTest forRemote) AtEnd .before str ps ∧
      sql = " WHERE ".toList ++ sqlOf (Test.sql forRemote) ps ∧
      WellBracketed sqlMarks sql ∧
      ∀ t, .test t ∈ ps → t.value.Denotes forRemote (t.value.sql forRemote)

/-- A condition that is taken with a misread test, or with more brackets open than
`bracket_level` can count, or of which a test runs off its end. -/
def Misread (forRemote : Bool) (str : List Char) : Prop :=
  (∃ ps, Reads (takenTest forRemote) AtEnd .before str ps ∧
    openBrackets nextLevel 0 ps = some 0 ∧
    ((∃ t, .test t ∈ ps ∧ t.misread = true) ∨ openBrackets (· + 1) 0 ps ≠ some 0)) ∨
  ∃ ps level, Reads (takenTest forRemote) (RunsOff forRemote) .before str ps ∧
    openBrackets nextLevel 0 ps = some level

end NextBSD.Libpkg.Query
