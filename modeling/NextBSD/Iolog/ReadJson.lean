import Mathlib.Data.List.DropRight
import NextBSD.Iolog.Json
import NextBSD.Library.AsciiText

/-!
# The reader of the log file

`lib/eventlog/parse_json.c`: the file is read line by line, one word after the other.  A frame is
an object or an array that is still open; in the source it stands in the list of the frame below
from the start, here it is put there when it is closed.  The messages are left out.
-/

namespace NextBSD.Iolog

open TextLines

inductive StrtonumErr where
  | initial | valid | invalid | tooSmall | tooBig
  deriving DecidableEq, Repr

/-- The loop over the digits of `sudo_strtonumx`; the sign is the sign of the number. -/
def strtonumLoop (negative : Bool) (lastval remainder : Int) :
    Int → StrtonumErr → Bytes → Int × StrtonumErr × Bytes
  | result, errval, [] => (result, errval, [])
  | result, errval, ch :: cp =>
    if isdigit ch then
      let digit : Int := (ch - 48).toNat
      if (if negative then result < lastval else lastval < result) ∨
          (result = lastval ∧ remainder < digit) then
        (result, if negative then .tooSmall else .tooBig, cp.dropWhile isdigit)
      else
        strtonumLoop negative lastval remainder
          (if negative then result * 10 - digit else result * 10 + digit) .valid cp
    else (result, errval, ch :: cp)

/-- `sudo_strtonumx`: the number, the error and what is left behind the digits. -/
def sudoStrtonumx (str : Bytes) (minval maxval : Int) : Int × StrtonumErr × Bytes :=
  if maxval < minval then (0, .invalid, str)
  else
    let cp := str.dropWhile isspace
    match cp with
    | 45 :: cp =>
      let lastval := minval.tdiv 10
      let remainder := -(minval.tmod 10)
      let (result, errval, ep) :=
        if remainder < 0 then strtonumLoop true (lastval + 1) (remainder + 10) 0 .initial cp
        else strtonumLoop true lastval remainder 0 .initial cp
      (result, if maxval < result then .tooBig else errval, ep)
    | _ =>
      let cp := if cp.head? = some 43 then cp.tail else cp
      let (result, errval, ep) := strtonumLoop false (maxval.tdiv 10) (maxval.tmod 10) 0 .initial cp
      (result, if result < minval then .tooSmall else errval, ep)

/-- `sudo_strtonum`, which wants the whole string to be the number. -/
def sudoStrtonum (str : Bytes) (minval maxval : Int) : Option Int :=
  match sudoStrtonumx str minval maxval with
  | (result, .valid, []) => some result
  | _ => none

def hexval (c : UInt8) : Option UInt8 :=
  if isdigit c then some (c - 48)
  else if 65 ≤ c ∧ c ≤ 70 then some (c - 55)
  else if 97 ≤ c ∧ c ≤ 102 then some (c - 87)
  else none

def sudoHexchar (a b : UInt8) : Option UInt8 := do
  let hi ← hexval a
  let lo ← hexval b
  pure (hi <<< 4 ||| lo)

/-- The first loop of `json_parse_string`: the text up to the closing quote and what follows the
quote. -/
def stringEnd : Bytes → Option (Bytes × Bytes)
  | [] => none
  | 34 :: cp => some ([], cp)
  | 92 :: 34 :: cp => (stringEnd cp).map (fun p => (92 :: 34 :: p.1, p.2))
  | c :: cp => (stringEnd cp).map (fun p => (c :: p.1, p.2))

/-- The second loop of `json_parse_string`.  Behind the text stands the closing quote, which is
neither a zero nor a digit. -/
def flatten : Bytes → Bytes
  | [] => []
  | 92 :: src =>
    match src with
    | 98 :: src => 8 :: flatten src
    | 102 :: src => 12 :: flatten src
    | 110 :: src => 10 :: flatten src
    | 114 :: src => 13 :: flatten src
    | 116 :: src => 9 :: flatten src
    | 117 :: 48 :: 48 :: a :: b :: src =>
      match sudoHexchar a b with
      | some ch => ch :: flatten src
      | none => 117 :: flatten (48 :: 48 :: a :: b :: src)
    | ch :: src => ch :: flatten src
    | [] => [34]
  | ch :: src => ch :: flatten src

/-- `json_parse_string`, with the quote first: the string and what follows the white space behind
it. -/
def jsonParseString (cp : Bytes) : Option (Bytes × Bytes) :=
  (stringEnd cp.tail).map (fun p => (flatten p.1, p.2.dropWhile isspace))

inductive JsonItem where
  | scalar (name : Option Bytes) (v : JsonScalar)
  | array (name : Option Bytes) (items : List JsonItem)
  | object (name : Option Bytes) (items : List JsonItem)

inductive FrameParent where
  | root
  | array (name : Option Bytes)
  | object (name : Option Bytes)
  deriving DecidableEq

structure JsonFrame where
  parent : FrameParent
  items : List JsonItem

def JsonFrame.isArray (frame : JsonFrame) : Bool :=
  match frame.parent with
  | .array _ => true
  | _ => false

/-- The variables of `eventlog_json_read`. -/
structure ReadState where
  name : Option Bytes
  sawComma : Bool
  frame : JsonFrame
  stack : List JsonFrame

def ReadState.start : ReadState :=
  { name := none, sawComma := false, frame := { parent := .root, items := [] }, stack := [] }

namespace ReadState

/-- The macro `expect_value`. -/
def expectValue (st : ReadState) : Bool := st.name.isSome || st.frame.isArray

def separated (st : ReadState) : Bool := st.sawComma || st.frame.items.isEmpty

/-- `json_insert_bool` and its kind. -/
def insert (st : ReadState) (v : JsonScalar) : ReadState :=
  { st with
    frame := { st.frame with items := st.frame.items ++ [.scalar st.name v] },
    name := none, sawComma := false }

/-- `json_stack_push`. -/
def push (st : ReadState) (parent : FrameParent) : Option ReadState :=
  if st.stack.length < 64 then
    some { name := none, sawComma := false, frame := { parent, items := [] },
           stack := st.frame :: st.stack }
  else none

def openObject (st : ReadState) : Option ReadState :=
  if st.name = none ∧ st.frame.parent ≠ .root then none
  else if !st.separated then none
  else st.push (.object st.name)

def openArray (st : ReadState) : Option ReadState :=
  if st.frame.parent = .root then none
  else if !st.separated then none
  else st.push (.array st.name)

def pop (st : ReadState) (item : JsonItem) : Option ReadState :=
  match st.stack with
  | [] => none
  | frame :: stack =>
    some { st with sawComma := false, frame := { frame with items := frame.items ++ [item] }, stack }

def closeObject (st : ReadState) : Option ReadState :=
  match st.frame.parent with
  | .object name => st.pop (.object name st.frame.items)
  | _ => none

def closeArray (st : ReadState) : Option ReadState :=
  match st.frame.parent with
  | .array name => st.pop (.array name st.frame.items)
  | _ => none

end ReadState

def readWord (word : Bytes) (v : JsonScalar) (st : ReadState) (cp : Bytes) :
    Option (ReadState × Bytes) :=
  if !word.isPrefixOf cp then none
  else if !st.expectValue then none
  else
    let cp := cp.drop word.length
    if cp.head?.any (fun c => c ≠ 44 && !isspace c) then none
    else if !st.separated then none
    else some (st.insert v, cp)

def endsNumber (c : UInt8) : Bool :=
  c = 32 || c = 12 || c = 10 || c = 13 || c = 9 || c = 11 || c = 44

def readNumber (st : ReadState) (cp : Bytes) : Option (ReadState × Bytes) :=
  if !st.expectValue then none
  else if !st.separated then none
  else
    (sudoStrtonum (cp.takeWhile (fun c => !endsNumber c)) (-2 ^ 63) (2 ^ 63 - 1)).map
      (fun num => (st.insert (.number num), cp.dropWhile (fun c => !endsNumber c)))

def readName (st : ReadState) : Option (Bytes × Bytes) → Option (ReadState × Bytes)
  | some (name, 58 :: cp) => some ({ st with name := some name }, cp)
  | _ => none

def readString (st : ReadState) (cp : Bytes) : Option (ReadState × Bytes) :=
  if st.frame.parent = .root then none
  else if !st.expectValue then readName st (jsonParseString cp)
  else if !st.separated then none
  else (jsonParseString cp).map (fun p => (st.insert (.string p.1), p.2))

def readToken (st : ReadState) : Bytes → Option (ReadState × Bytes)
  | [] => none
  | c :: cp =>
    if c = 123 then st.openObject.map (·, cp)
    else if c = 125 then st.closeObject.map (·, cp)
    else if c = 91 then st.openArray.map (·, cp)
    else if c = 93 then st.closeArray.map (·, cp)
    else if c = 34 then readString st (c :: cp)
    else if c = 116 then readWord (ascii "true") (.boolean true) st (c :: cp)
    else if c = 102 then readWord (ascii "false") (.boolean false) st (c :: cp)
    else if c = 110 then readWord (ascii "null") .null st (c :: cp)
    else if c = 43 ∨ c = 45 ∨ isdigit c then readNumber st (c :: cp)
    else none

def skipComma (st : ReadState) (cp : Bytes) : ReadState × Bytes :=
  match cp.dropWhile isspace with
  | 44 :: cp => ({ st with sawComma := true }, cp.dropWhile isspace)
  | cp => (st, cp)

def readWords : Nat → ReadState → Bytes → Option ReadState
  | 0, _, _ => none
  | fuel + 1, st, cp =>
    match skipComma st cp with
    | (st, []) => some st
    | (st, c :: cp) => (readToken st (c :: cp)).bind (fun p => readWords fuel p.1 p.2)

/-- White space at the end of the line is cut off, but for the first character. -/
def trimEnd : Bytes → Bytes
  | [] => []
  | c :: cp => c :: cp.rdropWhile isspace

def readLine (st : ReadState) (line : Bytes) : Option ReadState :=
  readWords (line.length + 1) st (trimEnd line)

/-- `eventlog_json_read`: the items of the root. -/
def eventlogJsonRead (file : Bytes) : Option (List JsonItem) :=
  match (splitLines 10 file).foldlM readLine ReadState.start with
  | none => none
  | some st => if st.stack = [] then some st.frame.items else none

end NextBSD.Iolog
