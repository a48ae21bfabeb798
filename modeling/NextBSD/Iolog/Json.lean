import Mathlib.Data.List.Basic
import NextBSD.Library.Digits

/-!
# The JSON writer

`lib/util/json.c`: a container collects the text of a document.  The buffer grows as needed, so
that a call fails only for a value that cannot be added.
-/

namespace NextBSD.Iolog

abbrev Bytes := List UInt8

def iscntrl (c : UInt8) : Bool := c < 32 || c = 127

def isdigit (c : UInt8) : Bool := 48 ≤ c && c ≤ 57

def isspace (c : UInt8) : Bool := (9 ≤ c && c ≤ 13) || c = 32

def hexDigit (d : UInt8) : UInt8 := if d < 10 then 48 + d else 87 + d

/-- `printf` with `%u` for a number that is not negative. -/
def printUnsigned (n : Nat) : Bytes :=
  if n = 0 then [48] else (Digits.printDigits 10 n).map (fun d => 48 + UInt8.ofNat d)

/-- `printf` with `%lld`. -/
def printSigned (i : Int) : Bytes :=
  if i < 0 then 45 :: printUnsigned i.natAbs else printUnsigned i.natAbs

def ascii (s : String) : Bytes := s.toList.map (fun c => UInt8.ofNat c.toNat)

/-- The values of `struct json_value` that have a member of their own in `json_item` as well. -/
inductive JsonScalar where
  | string (s : Bytes)
  | number (n : Int)
  | boolean (b : Bool)
  | null
  deriving DecidableEq, Repr

inductive JsonValue where
  | scalar (v : JsonScalar)
  | id (n : Nat)
  | array
  | object
  deriving DecidableEq, Repr

/-- `struct json_container`, without the sizes of the buffer. -/
structure JsonContainer where
  buf : Bytes
  indentLevel : Nat
  indentIncrement : Nat
  needComma : Bool
  minimal : Bool
  deriving DecidableEq, Repr

namespace JsonContainer

/-- `json_append_buf`. -/
def append (jsonc : JsonContainer) (str : Bytes) : JsonContainer :=
  { jsonc with buf := jsonc.buf ++ str }

def newLine (jsonc : JsonContainer) : JsonContainer :=
  if jsonc.minimal then jsonc else jsonc.append (10 :: List.replicate jsonc.indentLevel 32)

end JsonContainer

/-- What `json_append_string` writes for one character. -/
def escapeByte (ch : UInt8) : Bytes :=
  if ch = 34 ∨ ch = 92 then [92, ch]
  else if ch = 8 then [92, 98]
  else if ch = 12 then [92, 102]
  else if ch = 10 then [92, 110]
  else if ch = 13 then [92, 114]
  else if ch = 9 then [92, 116]
  else if iscntrl ch then [92, 117, 48, 48, hexDigit (ch >>> 4), hexDigit (ch &&& 15)]
  else [ch]

def escape (str : Bytes) : Bytes := str.flatMap escapeByte

/-- `json_append_string`. -/
def quoted (str : Bytes) : Bytes := 34 :: escape str ++ [34]

/-- The name with what stands between it and the value, if the value has a name. -/
def label (minimal : Bool) : Option Bytes → Bytes
  | none => []
  | some name => quoted name ++ (if minimal then [58] else [58, 32])

def sudoJsonInit (indent : Nat) (minimal : Bool) : JsonContainer :=
  { buf := [], indentLevel := indent, indentIncrement := indent, needComma := false, minimal }

/-- The comma if an object or an array is continued, and the line of its own. -/
def JsonContainer.next (jsonc : JsonContainer) : JsonContainer :=
  (if jsonc.needComma then jsonc.append [44] else jsonc).newLine

/-- `sudo_json_open_object` and `sudo_json_open_array`, with the brace or the bracket. -/
def sudoJsonOpen (brace : UInt8) (jsonc : JsonContainer) (name : Option Bytes) : JsonContainer :=
  let jsonc := jsonc.next.append (label jsonc.minimal name ++ [brace])
  { jsonc with indentLevel := jsonc.indentLevel + jsonc.indentIncrement, needComma := false }

/-- `sudo_json_close_object` and `sudo_json_close_array`. -/
def sudoJsonClose (brace : UInt8) (jsonc : JsonContainer) : JsonContainer :=
  let jsonc :=
    if jsonc.minimal then jsonc
    else
      JsonContainer.newLine { jsonc with indentLevel := jsonc.indentLevel - jsonc.indentIncrement }
  { jsonc.append [brace] with needComma := true }

def sudoJsonOpenObject := sudoJsonOpen 123
def sudoJsonCloseObject := sudoJsonClose 125
def sudoJsonOpenArray := sudoJsonOpen 91
def sudoJsonCloseArray := sudoJsonClose 93

def scalarText : JsonScalar → Bytes
  | .string s => quoted s
  | .number n => printSigned n
  | .boolean b => ascii (if b then "true" else "false")
  | .null => ascii "null"

def valueText : JsonValue → Option Bytes
  | .scalar v => some (scalarText v)
  | .id n => some (printUnsigned (n % 2 ^ 32))
  | .array => none
  | .object => none

/-- `sudo_json_add_value_int`: the container is left as it was if the value cannot be added. -/
def sudoJsonAddValueInt (jsonc : JsonContainer) (name : Option Bytes) (value : JsonValue)
    (asObject : Bool) : JsonContainer × Bool :=
  match valueText value with
  | none => (jsonc, false)
  | some text =>
    let brace (minimal full : Bytes) : Bytes :=
      if asObject then if jsonc.minimal then minimal else full else []
    ({ jsonc.next.append (brace [123] [123, 32] ++ label jsonc.minimal name ++ text ++
        brace [125] [32, 125]) with needComma := true }, true)

def sudoJsonAddValue (jsonc : JsonContainer) (name : Option Bytes) (value : JsonValue) :
    JsonContainer × Bool :=
  sudoJsonAddValueInt jsonc name value false

inductive JsonCall where
  | openObject (name : Option Bytes)
  | closeObject
  | openArray (name : Option Bytes)
  | closeArray
  | addValue (name : Option Bytes) (value : JsonValue)
  deriving DecidableEq, Repr

def JsonCall.run (jsonc : JsonContainer) : JsonCall → JsonContainer
  | .openObject name => sudoJsonOpenObject jsonc name
  | .closeObject => sudoJsonCloseObject jsonc
  | .openArray name => sudoJsonOpenArray jsonc name
  | .closeArray => sudoJsonCloseArray jsonc
  | .addValue name value => (sudoJsonAddValue jsonc name value).1

/-- The file that `iolog_write_info_file_json` writes for the calls. -/
def writeInfoFileJson (calls : List JsonCall) : Bytes :=
  123 :: (calls.foldl JsonCall.run (sudoJsonInit 4 false)).buf ++ [10, 125, 10]

end NextBSD.Iolog
