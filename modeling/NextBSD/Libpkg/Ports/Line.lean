import Mathlib
import NextBSD.Libpkg.Manifest.Types

/-!
# pkg_ports.c: one line of a plist

A line is its bytes before a `NUL` or a newline.
-/

namespace NextBSD.Libpkg.Ports

open Manifest (Bytes ascii)

def isspace (c : UInt8) : Bool := c = 32 || (9 ≤ c && c ≤ 13)

/-- The length of a variable's name, if a `%%` ends it before a space. -/
def closing : Bytes → Option Nat
  | [] => none
  | c :: rest =>
    if isspace c then none
    else if c = 37 ∧ rest.head? = some 37 then some 0
    else (closing rest).map (· + 1)

/-- `%.*s` of a length that is cast to `int`: a negative one is no limit. -/
def printed (len : Nat) (cp : Bytes) : Bytes :=
  if len % 2 ^ 32 < 2 ^ 31 then cp.take (len % 2 ^ 32) else cp

/-- The loop of `expand_plist_variables`.  The number says how many bytes are passed over. -/
def expandFrom (vars : List (Bytes × Bytes)) : Nat → Bytes → Bytes
  | _, [] => []
  | n + 1, _ :: rest => expandFrom vars n rest
  | 0, c :: rest =>
    if c ≠ 37 then c :: expandFrom vars 0 rest
    else
      match rest with
      | [] => [37]
      | d :: cp =>
        if d ≠ 37 then 37 :: d :: expandFrom vars 1 (d :: cp)
        else
          match closing cp with
          | none =>
            let name := cp.takeWhile (fun c => !isspace c)
            37 :: 37 :: printed name.length cp ++ expandFrom vars (1 + name.length) (d :: cp)
          | some len =>
            -- a variable is found by the start of its name
            (match vars.find? (fun kv => cp.take len <+: kv.1) with
              | some kv => kv.2
              | none => 37 :: 37 :: printed (len + 1) cp ++ [37]) ++
              expandFrom vars (1 + len + 2) (d :: cp)

def expandPlistVariables (vars : List (Bytes × Bytes)) (line : Bytes) : Bytes :=
  if vars = [] then line else expandFrom vars 0 line

/-- `add_variable`, with nothing where there is no name. -/
def addVariable (vars : List (Bytes × Bytes)) (line : Bytes) : Option (List (Bytes × Bytes)) :=
  let key := line.takeWhile (fun c => !isspace c)
  let val := (line.dropWhile (fun c => !isspace c)).dropWhile isspace
  if key = [] then none
  else if vars.any (fun kv => kv.1 = key) then
    some (vars.map (fun kv => if kv.1 = key then (key, val) else kv))
  else some (vars ++ [(key, val)])

/-! ## Keywords -/

structure FileAttr where
  owner : Option Bytes
  group : Option Bytes
  mode : Nat
  fflags : Nat
  deriving DecidableEq, Repr

structure System where
  /-- `strtofflags`. -/
  strtofflags : Bytes → Option Nat
  /-- `parse_mode`, with the mode that it sets. -/
  parseMode : Bytes → Option Nat
  /-- The lines of a file in the directory of the plist. -/
  openat : Bytes → Option (List Bytes)

/-- The loop of `parse_keyword_args`, which cuts the arguments at the commas, all but the last of
four. -/
def cutArgs : Nat → Bytes → List Bytes
  | n, args =>
    let args := args.dropWhile isspace
    if args = [] then []
    else
      match n with
      | 0 => [args]
      | n + 1 =>
        if args.contains 44 then
          args.takeWhile (· ≠ 44) :: cutArgs n (args.dropWhile (· ≠ 44)).tail
        else [args]

def nonemptyArg (arg : Option Bytes) : Option Bytes := arg.filter (· ≠ [])

/-- `parse_keyword_args`, of what stands between the parentheses. -/
def parseKeywordArgs (sys : System) (args : Bytes) : Option FileAttr :=
  let cut := cutArgs 3 args
  let fset := match nonemptyArg cut[3]? with
    | none => some 0
    | some fflags => sys.strtofflags fflags
  let set := match nonemptyArg cut[2]? with
    | none => some 0
    | some permstr => sys.parseMode permstr
  match fset, set with
  | some fset, some mode =>
    if cut = [] then none
    else some
      { owner := (nonemptyArg cut[0]?).map (fun s => s.rdropWhile isspace)
        group := (nonemptyArg cut[1]?).map (fun s => s.rdropWhile isspace)
        mode := mode, fflags := fset }
  | _, _ => none

/-- The keyword and what follows it.  No space ends the keyword inside of parentheses. -/
def cutKeyword : Bool → Bytes → Option (Bytes × Bytes)
  | inside, [] => if inside then none else some ([], [])
  | inside, c :: rest =>
    if inside then (cutKeyword (c ≠ 41) rest).map (fun r => (c :: r.1, r.2))
    else if isspace c then some ([], c :: rest)
    else (cutKeyword (c = 40) rest).map (fun r => (c :: r.1, r.2))

def extractKeywords (sys : System) (line : Bytes) : Option (Bytes × Bytes × Option FileAttr) :=
  match cutKeyword false line with
  | none => none
  | some (k, buf) =>
    let buf := buf.dropWhile isspace
    if k.contains 40 then
      if k.getLast? ≠ some 41 then none
      else
        (parseKeywordArgs sys (k.dropWhile (· ≠ 40)).tail.dropLast).map
          (fun a => (k.takeWhile (· ≠ 40), buf, some a))
    else some (k, buf, none)

inductive Handler where
  | file (buf : Bytes) (attr : Option FileAttr)
  | keyword (keyword buf : Bytes) (attr : Option FileAttr)
  deriving DecidableEq, Repr

/-- What `plist_parse_line` does with a line that is read outside of a loop. -/
inductive Action where
  | skip
  | malformed
  | forHandler (buf : Bytes)
  | includePlist (name : Bytes)
  | handle (h : Handler)
  deriving DecidableEq, Repr

def isSkipped (line : Bytes) : Bool := line.head? = none || line.head? = some 35

def isEnd (line : Bytes) : Bool := ascii "@end" <+: line && ((line.drop 4).head?.all isspace)

def lineAction (sys : System) (line : Bytes) : Action :=
  if isSkipped line then .skip
  else if line.head? = some 64 then
    match extractKeywords sys line.tail with
    | none => .malformed
    | some (keyword, buf, attr) =>
      if keyword = [] then .handle (.file buf attr)
      else if keyword = ascii "for" then .forHandler buf
      else if keyword = ascii "include" then .includePlist buf
      else .handle (.keyword keyword buf attr)
  else .handle (.file (line.dropWhile isspace) none)

def cutValues : Bytes → List Bytes
  | [] => []
  | c :: rest =>
    if isspace c then cutValues rest
    else
      match rest with
      | [] => [[c]]
      | d :: _ =>
        if isspace d then [c] :: cutValues rest
        else
          match cutValues rest with
          | [] => [[c]]
          | word :: words => (c :: word) :: words

def forHeader (line : Bytes) : Option (Bytes × List Bytes) :=
  let var := line.takeWhile (fun c => !isspace c)
  let values := cutValues (line.dropWhile (fun c => !isspace c))
  if values = [] then none else some (var, values)

/-- `strstr(cp, "%%")`. -/
def findPair : Bytes → Option Nat
  | [] => none
  | c :: rest =>
    if c = 37 ∧ rest.head? = some 37 then some 0 else (findPair rest).map (· + 1)

/-- The exact name stands before the next `%%`. -/
def exactMatch (varname cp : Bytes) : Bool := findPair cp = some varname.length && varname <+: cp

/-- The loop of `forloop_substitute_var`, with no text where it reads past the end.  The number
says how many bytes are passed over. -/
def substituteFrom (varname varval : Bytes) : Nat → Bytes → Option Bytes
  | _, [] => some []
  | n + 1, _ :: rest => substituteFrom varname varval n rest
  | 0, c :: rest =>
    if c = 37 ∧ rest.head? = some 37 then
      if exactMatch varname rest.tail then
        (substituteFrom varname varval (1 + varname.length + 2) rest).map (varval ++ ·)
      else
        -- the byte behind the `%%` is copied without them, and if it is `NUL` it is passed
        match rest.tail.head? with
        | none => none
        | some d => (substituteFrom varname varval 2 rest).map (d :: ·)
    else (substituteFrom varname varval 0 rest).map (c :: ·)

def forloopSubstituteVar (varname varval text : Bytes) : Option Bytes :=
  substituteFrom varname varval 0 text

end NextBSD.Libpkg.Ports
