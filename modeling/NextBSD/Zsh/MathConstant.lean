import NextBSD.Zsh.NumberExact
import NextBSD.Zsh.IntegerText

/-!
# math.c: numbers in arithmetic expressions

A minus in front of a number is read by the lexer, which negates the number that `lexconstant`
reads behind it.
-/

namespace NextBSD.Zsh

open Digits

/-- What is made a `double`. -/
inductive DoubleSource where
  | text (s : Bytes)
  | integer (l : Int)
  deriving DecidableEq, Repr

inductive Mnumber where
  | integer (l : Int)
  | double (negated : Bool) (source : DoubleSource)
  deriving DecidableEq, Repr

/-- The tokens; `other` has those that begin with none of the characters read here. -/
inductive MathToken where
  | num
  | eoi
  | outpar
  | uminus
  | minus
  | minuseq
  | preminus
  | postminus
  | other (tok : Nat)
  deriving DecidableEq, Repr

inductive MathMessage where
  | number (message : Message)
  | badFloat
  | expected (operator : Bool) (text : Bytes)
  | stackOverflow
  | unexpectedPar
  | illegal (c : UInt8)
  deriving DecidableEq, Repr

def MathMessage.format : MathMessage → String
  | .number message => message.format
  | .badFloat => "bad floating point constant"
  | .expected _ [] => "bad math expression: %s expected at end of string"
  | .expected _ (_ :: _) => "bad math expression: %s expected at `%l%s'"
  | .stackOverflow => "stack overflow"
  | .unexpectedPar => "bad math expression: unexpected ')'"
  | .illegal _ => "bad math expression: illegal character: %c"

structure MathState where
  ptr : Bytes
  unary : Bool
  mtok : MathToken
  yyval : Mnumber
  lastbase : Int
  /-- The top of the stack comes first. -/
  stack : List Mnumber
  messages : List MathMessage
  errflag : Bool
  deriving DecidableEq, Repr

/-- What is done with the tokens that begin with other characters: operators, names and the like;
`strtod` gives the number of bytes that it reads. -/
structure OtherTokens where
  lex : MathState → MathToken × MathState
  prec : Nat → Nat
  operator : Nat → Bool
  opf : Nat → Bool
  run : MathToken → MathState → MathState
  strtod : Bytes → Nat

def MathState.report (st : MathState) (message : MathMessage) (isError : Bool) : MathState :=
  if st.errflag then st
  else { st with messages := st.messages ++ [message], errflag := isError }

def Message.isError : Message → Bool
  | .invalidBase _ => true
  | .truncated _ _ => false

def MathState.reportNumber (st : MathState) : Option Message → MathState
  | none => st
  | some message => st.report (.number message) message.isError

/-- `zstrtol_underscore(ptr, &ptr, base, 1)`. -/
def MathState.readInteger (st : MathState) (base : Int) : Int × MathState :=
  let a := zstrtolUnderscore st.ptr base true
  (a.value, { st.reportNumber a.message with ptr := a.endp.getD st.ptr })

def MathState.integerToken (st : MathState) (o : NumberOptions) (l : Int) : MathToken × MathState :=
  (.num, { st with yyval := if o.forcefloat then .double false (.integer l) else .integer l })

def intOf (l : Int) : Int := (l + 2 ^ 31) % 2 ^ 32 - 2 ^ 31

def skipDigits (s : Bytes) : Bytes := s.dropWhile fun c => idigit c || c = 95

def asciiLower (c : UInt8) : UInt8 := if 65 ≤ c ∧ c ≤ 90 then c + 32 else c

/-- A number with a point or an exponent; `nptr` stands at it. -/
def lexFloat (m : OtherTokens) (st : MathState) (nptr : Bytes) : MathToken × MathState :=
  let nptr := if nptr.head? = some 46 then skipDigits nptr.tail else nptr
  let nptr :=
    if nptr.head? = some 101 ∨ nptr.head? = some 69 then
      if nptr.tail.head? = some 43 ∨ nptr.tail.head?.any isDash = true then
        skipDigits nptr.tail.tail
      else skipDigits nptr.tail
    else nptr
  let ptr := (st.ptr.take (st.ptr.length - nptr.length)).filter (· ≠ 95) ++ nptr
  let count := m.strtod ptr
  if count = 0 ∨ (ptr.drop count).head? = some 46 then
    (.eoi, { st with ptr := ptr }.report .badFloat true)
  else
    (.num, { st with ptr := ptr.drop count, yyval := .double false (.text (ptr.take count)) })

/-- What `lexconstant` does when no prefix has told the base; `nptr` is where it looks on. -/
def lexDecimal (m : OtherTokens) (o : NumberOptions) (st : MathState) (nptr : Bytes) :
    MathToken × MathState :=
  let nptr := skipDigits nptr
  if nptr.head? = some 46 ∨ nptr.head? = some 101 ∨ nptr.head? = some 69 then lexFloat m st nptr
  else
    let (l, st) := st.readInteger 10
    if st.ptr.head? = some 35 then
      let (l, st) := { st with ptr := st.ptr.tail, lastbase := intOf l }.readInteger (intOf l)
      st.integerToken o l
    else st.integerToken o l

def lexconstant (m : OtherTokens) (o : NumberOptions) (st : MathState) : MathToken × MathState :=
  let nptr := if st.ptr.head?.any isDash then st.ptr.tail else st.ptr
  if nptr.head? = some 48 then
    let nptr := nptr.tail
    let lowchar := asciiLower (nptr.headD 0)
    if lowchar = 120 ∨ lowchar = 98 then
      let (l, st) := st.readInteger 0
      { st with lastbase := if lowchar = 98 then 2 else 16 }.integerToken o l
    else if o.octalzeroes then
      let ptr2 := skipDigits nptr
      if ptr2.length < nptr.length ∧ ptr2.head? ≠ some 46 ∧ ptr2.head? ≠ some 101 ∧
          ptr2.head? ≠ some 69 ∧ ptr2.head? ≠ some 35 then
        let (l, st) := st.readInteger 0
        { st with lastbase := 8 }.integerToken o l
      else lexDecimal m o st ptr2
    else lexDecimal m o st nptr
  else lexDecimal m o st nptr

def Mnumber.neg : Mnumber → Mnumber
  | .integer l => .integer (zlong (-l))
  | .double negated source => .double (!negated) source

def zzlex (m : OtherTokens) (o : NumberOptions) (st : MathState) : MathToken × MathState :=
  let st := { st with
    ptr := st.ptr.dropWhile fun c => c = 32 || c = 9 || c = 10 || c = 34 || c = 0x9e }
  match st.ptr with
  | [] => (.eoi, st)
  | c :: s =>
    if isDash c then
      if s.head?.any isDash then
        (if st.unary then .preminus else .postminus, { st with ptr := s.tail })
      else if s.head? = some 61 then (.minuseq, { st with ptr := s.tail })
      else if st.unary then
        if s.head?.any fun c => idigit c || c = 46 then
          let (tok, st) := lexconstant m o { st with ptr := s }
          (tok, if tok = .num then { st with yyval := st.yyval.neg } else st)
        else (.uminus, { st with ptr := s })
      else (.minus, { st with ptr := s })
    else if idigit c || c = 46 then lexconstant m o st
    else m.lex st

def MathToken.prec (m : OtherTokens) (o : NumberOptions) : MathToken → Nat
  | .num => 0
  | .eoi => 200
  | .outpar => 137
  | .uminus => 2
  | .minus => if o.cprecedences then 5 else 9
  | .minuseq => if o.cprecedences then 17 else 16
  | .preminus => 2
  | .postminus => 2
  | .other tok => m.prec tok

def MathToken.operator (m : OtherTokens) : MathToken → Bool
  | .num => false
  | .eoi => true
  | .outpar => true
  | .uminus => false
  | .minus => true
  | .minuseq => true
  | .preminus => false
  | .postminus => true
  | .other tok => m.operator tok

/-- `OP_OPF`: an operator follows. -/
def MathToken.opf (m : OtherTokens) : MathToken → Bool
  | .num => true
  | .outpar => true
  | .postminus => true
  | .other tok => m.opf tok
  | _ => false

def TOPPREC (o : NumberOptions) : Nat := if o.cprecedences then 19 else 18

def STACKSZ : Nat := 100

def MathState.push (st : MathState) : MathState :=
  if st.stack.length = STACKSZ then
    { st with stack := st.yyval :: st.stack.tail }.report .stackOverflow true
  else { st with stack := st.yyval :: st.stack }

def checkunary (m : OtherTokens) (mptr : Bytes) (st : MathState) : MathState :=
  let st' :=
    if st.mtok.operator m = st.unary then
      st.report (.expected (!st.unary) (mptr.dropWhile inblank)) true
    else st
  { st' with unary := !st.mtok.opf m }

def lexToken (m : OtherTokens) (o : NumberOptions) (st : MathState) : MathState :=
  let (tok, st) := zzlex m o st
  { st with mtok := tok }

def mathLoop (m : OtherTokens) (o : NumberOptions) (pc : Nat) : Nat → MathState → Option MathState
  | 0, _ => none
  | rounds + 1, st =>
    if pc < st.mtok.prec m o then some st
    else if st.errflag then some st
    else if st.mtok = .num then
      mathLoop m o pc rounds (checkunary m st.push.ptr (lexToken m o st.push))
    else mathLoop m o pc rounds (m.run st.mtok st)

def mathparse (m : OtherTokens) (o : NumberOptions) (rounds pc : Nat) (st : MathState) :
    Option MathState :=
  if st.errflag then some st
  else
    let st' := lexToken m o st
    if pc = TOPPREC o ∧ st'.mtok = .eoi then some st'
    else mathLoop m o pc rounds (checkunary m st.ptr st')

structure MathAnswer where
  value : Mnumber
  messages : List MathMessage
  deriving DecidableEq, Repr

def mathStart (s : Bytes) : MathState :=
  { ptr := s, unary := true, mtok := .eoi, yyval := .integer 0, lastbase := -1, stack := []
    messages := [], errflag := false }

/-- `matheval`, of a text that is not part of another expression. -/
def matheval (m : OtherTokens) (o : NumberOptions) (rounds : Nat) (s : Bytes) : Option MathAnswer :=
  let s := if s.head? = some 0xa1 then s.tail else s
  if s = [] then some { value := .integer 0, messages := [] }
  else
    match mathparse m o rounds (TOPPREC o) (mathStart s) with
    | none => none
    | some st =>
      let st := if st.mtok = .outpar then st.report .unexpectedPar true else st
      let value := if st.errflag then .integer 0 else st.stack.getLastD (.integer 0)
      some
        { value := value
          messages := match st.ptr with
            | [] => st.messages
            | c :: _ => (st.report (.illegal c) true).messages }

def noTokens : OtherTokens :=
  { lex := fun st => (.eoi, st), prec := fun _ => 200, operator := fun _ => true
    opf := fun _ => false, run := fun _ st => st, strtod := fun _ => 0 }

end NextBSD.Zsh
