import NextBSD.Libpkg.Ports.Line
import NextBSD.Library.AsciiText

/-!
# pkg_ports.c: reading a plist

The lines that reach the handlers are recorded in their order.  What the handlers do with a line is
left out, but for the variables and for whether a line fails.
-/

namespace NextBSD.Libpkg.Ports

open Manifest (Bytes ascii)
open TextLines

structure Frame where
  var : Bytes
  values : List Bytes
  body : Bytes
  deriving DecidableEq, Repr

/-- `struct plist`.  The flag `in_for_loop` is set exactly while there is a frame. -/
structure Plist where
  vars : List (Bytes × Bytes)
  inInclude : Bool
  forloopStack : List Frame
  handled : List Handler
  deriving DecidableEq, Repr

def plistNew : Plist where
  vars := []
  inInclude := false
  forloopStack := []
  handled := []

def Plist.inForLoop (p : Plist) : Bool := !p.forloopStack.isEmpty

inductive Rc where
  | ok
  | fatal
  deriving DecidableEq, Repr

/-- The first code that is not `EPKG_OK`. -/
def Rc.first (rc ret : Rc) : Rc := if rc = .ok then ret else rc

/-- Why there is no result: a read past the end of a body, or calls nested deeper than is asked
for. -/
inductive Fault where
  | overread
  | depth
  deriving DecidableEq, Repr

abbrev Result := Except Fault (Plist × Rc)

/-- The handlers: whether the line fails, after those that were handled before. -/
abbrev Perform := List Handler → Handler → Rc

def forHandler (p : Plist) (line : Bytes) : Plist × Rc :=
  match forHeader line with
  | none => (p, .fatal)
  | some (var, values) =>
    ({ p with forloopStack := { var := var, values := values, body := [] } :: p.forloopStack }, .ok)

/-- A handler is called.  `add_variable` is the one that is followed. -/
def Plist.handle (perform : Perform) (p : Plist) (h : Handler) : Plist × Rc :=
  let rc := perform p.handled h
  let p := { p with handled := p.handled ++ [h] }
  match h with
  | .file _ _ => (p, rc)
  | .keyword keyword buf _ =>
    if keyword = ascii "var" then
      match addVariable p.vars buf with
      | none => (p, .fatal)
      | some vars => ({ p with vars := vars }, .ok)
    else (p, rc)

def Plist.appendBody (p : Plist) (text : Bytes) : Plist :=
  match p.forloopStack with
  | [] => p
  | f :: next => { p with forloopStack := { f with body := f.body ++ text } :: next }

/-- Lines one after another, with the first code that is not `EPKG_OK`. -/
def parseLines (parse : Plist → Bytes → Result) (lines : List Bytes) (p : Plist) (rc : Rc) :
    Result :=
  lines.foldlM (fun s line => do
    let (p, ret) ← parse s.1 line
    .ok (p, s.2.first ret)) (p, rc)

def readLine (parse : Plist → Bytes → Result) (p : Plist) (line : Bytes) : Result :=
  parse p (if p.inForLoop then line else expandPlistVariables p.vars line)

def replayLine (parse : Plist → Bytes → Result) (p : Plist) (line : Bytes) : Result :=
  parse p (expandPlistVariables p.vars line)

def plistParse (parse : Plist → Bytes → Result) (lines : List Bytes) (p : Plist) : Result :=
  parseLines (readLine parse) lines p .ok

/-- The turn of `forloop_execute` for one value.  While there is a loop around, the lines are
added to its body one by one, each with its newline. -/
def executeValue (parse : Plist → Bytes → Result) (f : Frame) (s : Plist × Rc) (value : Bytes) :
    Result :=
  match forloopSubstituteVar f.var value f.body with
  | none => .error .overread
  | some expanded =>
    if s.1.inForLoop then .ok (s.1.appendBody expanded, s.2)
    else parseLines (replayLine parse) (splitLines 10 expanded) s.1 s.2

def forloopExecute (parse : Plist → Bytes → Result) (p : Plist) : Result :=
  match p.forloopStack with
  | [] => .ok (p, .fatal)
  | f :: next =>
    f.values.foldlM (executeValue parse f) ({ p with forloopStack := next }, .ok)

def includePlist (sys : System) (parse : Plist → Bytes → Result) (p : Plist) (name : Bytes) :
    Result :=
  if p.inInclude then .ok (p, .fatal)
  else
    let p := { p with inInclude := true }
    match sys.openat name with
    | none => .ok (p, .fatal)
    | some lines => plistParse parse lines p

/-- `plist_parse_line`.  The number bounds how deep `forloop_execute` and `include_plist` come back
to it. -/
def plistParseLine (sys : System) (perform : Perform) : Nat → Plist → Bytes → Result
  | 0, _, _ => .error .depth
  | depth + 1, p, line =>
    if isSkipped line then .ok (p, .ok)
    else if p.inForLoop then
      if isEnd line then forloopExecute (plistParseLine sys perform depth) p
      else .ok (p.appendBody (line ++ [10]), .ok)
    else
      match lineAction sys line with
      | .skip => .ok (p, .ok)
      | .malformed => .ok (p, .fatal)
      | .forHandler buf => .ok (forHandler p buf)
      | .includePlist name => includePlist sys (plistParseLine sys perform depth) p name
      | .handle h => .ok (p.handle perform h)

def portsParsePlist (sys : System) (perform : Perform) (depth : Nat) (lines : List Bytes) : Result :=
  plistParse (plistParseLine sys perform depth) lines plistNew

end NextBSD.Libpkg.Ports

/-!
## The unrolled text of a plist

A plist is made of lines, of loops and of the lines that include a file.  Its unrolled text has the
body of a loop once for each value, with the value for the name, and the lines of a file for the
line that includes it.  No line of the unrolled text is read as a loop or as an inclusion.  The
headers are read like any other line, so that the variables set before count in them.
-/

namespace NextBSD.Libpkg.Ports

open Manifest (Bytes ascii)
open TextLines

inductive Item where
  | line (text : Bytes)
  | loop (header : Bytes) (body : List Item)
  | incl (text : Bytes)

mutual

def Item.render : Item → List Bytes
  | .line text => [text]
  | .loop header body => header :: (renderAll body ++ [ascii "@end"])
  | .incl text => [text]

def renderAll : List Item → List Bytes
  | [] => []
  | item :: items => item.render ++ renderAll items

end

/-- `%%VAR%%`. -/
def occurrence (varname : Bytes) : Bytes := 37 :: 37 :: (varname ++ [37, 37])

/-- The values of the loops around a line, from the outermost to the innermost. -/
def substLine (subst : List (Bytes × Bytes)) (line : Bytes) : Bytes :=
  subst.foldl (fun line s => replace (occurrence s.1) s.2 line) line

/-- Every `%%` that a loop comes to is that of its name. -/
def cleanFrom (varname : Bytes) : Nat → Bytes → Bool
  | _, [] => true
  | n + 1, _ :: rest => cleanFrom varname n rest
  | 0, c :: rest =>
    if c = 37 ∧ rest.head? = some 37 then
      exactMatch varname rest.tail && cleanFrom varname (1 + varname.length + 2) rest
    else cleanFrom varname 0 rest

def cleanLine : List (Bytes × Bytes) → Bytes → Bool
  | [], _ => true
  | s :: subst, line =>
    cleanFrom s.1 0 line && cleanLine subst (replace (occurrence s.1) s.2 line)

section Unroll

variable (sys : System) (perform : Perform)

def readPlain (p : Plist) (line : Bytes) : Option Plist :=
  match lineAction sys (expandPlistVariables p.vars line) with
  | .skip => some p
  | .malformed => some p
  | .handle h => some (p.handle perform h).1
  | .forHandler _ => none
  | .includePlist _ => none

/-- The unrolled text so far, what reading it has come to, how many files were included, and whether
every line in a loop was clean. -/
structure Unrolled where
  text : List Bytes
  plist : Plist
  includes : Nat
  clean : Bool

def Unrolled.start : Unrolled where
  text := []
  plist := plistNew
  includes := 0
  clean := true

def isOwnLine (line : Bytes) : Bool := !isEnd line && !line.contains 10

def keptClean (subst : List (Bytes × Bytes)) (line : Bytes) : Bool :=
  isSkipped line || cleanLine subst line

def substAction (subst : List (Bytes × Bytes)) (line : Bytes) (u : Unrolled) : Action :=
  lineAction sys (expandPlistVariables u.plist.vars (substLine subst line))

variable (incl : Unrolled → Bytes → Option Unrolled)

def unrollLine (subst : List (Bytes × Bytes)) (text : Bytes) (u : Unrolled) : Option Unrolled :=
  if isOwnLine text then
    (readPlain sys perform u.plist (substLine subst text)).map (fun p =>
      { u with
        text := u.text ++ [substLine subst text], plist := p
        clean := u.clean && keptClean subst text })
  else none

def unrollIncl (subst : List (Bytes × Bytes)) (text : Bytes) (u : Unrolled) : Option Unrolled :=
  if isOwnLine text then
    match substAction sys subst text u with
    | .includePlist name =>
      incl { u with includes := u.includes + 1, clean := u.clean && keptClean subst text } name
    | _ => none
  else none

def unrollHeader (subst : List (Bytes × Bytes)) (header : Bytes) (u : Unrolled) :
    Option (Bytes × List Bytes) :=
  if isOwnLine header then
    match substAction sys subst header u with
    | .forHandler buf => forHeader buf
    | _ => none
  else none

mutual

def unrollItem (subst : List (Bytes × Bytes)) : Item → Unrolled → Option Unrolled
  | .line text, u => unrollLine sys perform subst text u
  | .incl text, u => unrollIncl sys incl subst text u
  | .loop header body, u =>
    match unrollHeader sys subst header u with
    | none => none
    | some (var, values) =>
      values.foldlM (fun u value => unrollAll (subst ++ [(var, value)]) body u)
        { u with clean := u.clean && keptClean subst header }

def unrollAll (subst : List (Bytes × Bytes)) : List Item → Unrolled → Option Unrolled
  | [], u => some u
  | item :: items, u => (unrollItem subst item u).bind (unrollAll subst items)

end

end Unroll

def inclFile (sys : System) (perform : Perform) (files : Bytes → Option (List Item)) (u : Unrolled)
    (name : Bytes) : Option Unrolled :=
  match files name with
  | none => none
  | some items => unrollAll sys perform (fun _ _ => none) [] items u

def unroll (sys : System) (perform : Perform) (files : Bytes → Option (List Item))
    (items : List Item) : Option Unrolled :=
  unrollAll sys perform (inclFile sys perform files) [] items Unrolled.start

end NextBSD.Libpkg.Ports
