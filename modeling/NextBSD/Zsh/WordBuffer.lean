import NextBSD.Library.Block
import NextBSD.Zsh.Wordcode

/-!
# parse.c: the code buffer

The parser keeps the words of a program in `ecbuf` and the strings in a tree, and `bld_eprog` puts
both into one program.  The strings of a function body are a part of the table of what is around
it.  Memory does not run out, and the counters, which are of type `int`, do not overflow.
-/

namespace NextBSD.Zsh

def wcBld (c d : Nat) : Wordcode := (c ||| d <<< 5) % 2 ^ 32
def wcData (c : Wordcode) : Nat := c >>> 5

def wcbEnd : Wordcode := wcBld 0 0
def wcbRedir (t : Nat) : Wordcode := wcBld 4 t
def wcbFuncdef (skip : Nat) : Wordcode := wcBld 11 skip

def redirTypeMask : Nat := 0x1f
def redirVaridMask : Nat := 0x20
def redirFromHeredocMask : Nat := 0x40

def redirHerestr : Nat := 12

/-- `struct heredocs`, and which of the redirections of the program it is for. -/
structure Heredocs where
  type : Nat
  pc : Nat
  str : CStr
  redir : Nat
  deriving DecidableEq, Repr

structure Ec where
  ecbuf : List Wordcode
  ecstrs : KeyTree Eccstr
  ecsoffs : Nat
  ecssub : Nat
  ecnfunc : Nat
  ecnpats : Nat
  hdocs : List Heredocs
  deriving DecidableEq, Repr

/-- The variables of `par_funcdef` or `par_simple` that are still needed after the body. -/
structure Funcdef where
  p : Nat
  num : Nat
  so : Nat
  oecssub : Nat
  onp : Nat
  deriving DecidableEq, Repr

namespace Ec

def initParse : Ec :=
  { ecbuf := [], ecstrs := .nil, ecsoffs := 0, ecssub := 0, ecnfunc := 0, ecnpats := 0,
    hdocs := [] }

def ecused (ec : Ec) : Nat := ec.ecbuf.length

/-- `ecbuf[p] = c`. -/
def store (ec : Ec) (p : Nat) (c : Wordcode) : Ec := { ec with ecbuf := ec.ecbuf.set p c }

def ecadd (ec : Ec) (c : Wordcode) : Ec := { ec with ecbuf := ec.ecbuf ++ [c] }

/-- `ecispace(p, n)`: what the new words are until they are stored is `stale`. -/
def ecispace (ec : Ec) (p : Nat) (stale : List Wordcode) : Ec :=
  { ec with
    ecbuf := ec.ecbuf.take p ++ stale ++ ec.ecbuf.drop p
    hdocs := ec.hdocs.map fun h => if p ≤ h.pc then { h with pc := h.pc + stale.length } else h }

def ecdel (ec : Ec) (p : Nat) : Ec :=
  { ec with
    ecbuf := ec.ecbuf.eraseIdx p
    hdocs := ec.hdocs.map fun h => if p ≤ h.pc then { h with pc := h.pc - 1 } else h }

def ecstrcode (ec : Ec) (s : CStr) : Wordcode × Ec :=
  if s.memory.length ≤ 4 then (shortCode s, ec)
  else
    match ec.ecstrs.find (eccstrcmp ec.ecnfunc s) with
    | some p => (p.offs, ec)
    | none =>
      let p : Eccstr :=
        { str := s, offs := longCode (ec.ecsoffs - ec.ecssub) s, aoffs := ec.ecsoffs,
          nfunc := ec.ecnfunc, hashval := hasher s }
      (p.offs,
        { ec with
          ecstrs := ec.ecstrs.insert (eccstrcmp ec.ecnfunc s) p
          ecsoffs := ec.ecsoffs + s.memory.length })

/-- `ecbuf[p] = ecstrcode(s)`. -/
def storeStr (ec : Ec) (p : Nat) (s : CStr) : Ec := (ec.ecstrcode s).2.store p (ec.ecstrcode s).1

def ecstr (ec : Ec) (s : CStr) : Ec := (ec.ecstrcode s).2.ecadd (ec.ecstrcode s).1

/-- `par_redir` for a here-document: five words at `r`, or six if the redirection has a variable.
The words that it does not store are `stale`. -/
def heredocRedir (ec : Ec) (r type fd1 redir : Nat) (term : CStr) (idstring : Option CStr)
    (stale : Wordcode × Wordcode × Wordcode) : Ec :=
  let space := [0, 0, stale.1, stale.2.1, stale.2.2]
  let ec :=
    match idstring with
    | some s =>
      (((ec.ecispace r (space ++ [0])).store r
        (wcbRedir (type ||| redirVaridMask ||| redirFromHeredocMask))).store (r + 1) fd1).storeStr
          (r + 5) s
    | none =>
      ((ec.ecispace r space).store r (wcbRedir (type ||| redirFromHeredocMask))).store (r + 1) fd1
  { ec with hdocs := ec.hdocs ++ [{ type := type, pc := r, str := term, redir := redir }] }

def setheredoc (ec : Ec) (pc type : Nat) (str termstr mungedTermstr : CStr) : Ec :=
  let varid := wcData (ec.ecbuf.getD pc 0) &&& redirVaridMask
  ((((ec.store pc (wcbRedir (type ||| redirFromHeredocMask ||| varid))).storeStr (pc + 2)
    str).storeStr (pc + 3) termstr).storeStr (pc + 4) mungedTermstr)

/-- The lexer has read the text of the first here-document that waits for one. -/
def gethere (ec : Ec) (doc mungedTerm : CStr) : Option Ec :=
  match ec.hdocs with
  | [] => none
  | h :: next => some { ec.setheredoc h.pc redirHerestr doc h.str mungedTerm with hdocs := next }

def functionStart (ec : Ec) (p num : Nat) : Funcdef × Ec :=
  let ec := (((ec.ecadd 0).ecadd 0).ecadd 0).ecadd 0
  ({ p := p, num := num, so := ec.ecsoffs, oecssub := ec.ecssub, onp := ec.ecnpats },
    { ec with ecnfunc := ec.ecnfunc + 1, ecssub := ec.ecsoffs, ecnpats := 0 })

/-- The end of a function's body.  `par_simple` has stored `num` before. -/
def functionEnd (ec : Ec) (f : Funcdef) (tracing : Wordcode) : Ec :=
  let ec := ec.ecadd wcbEnd
  let ec := ec.store (f.p + f.num + 2) ((f.so - f.oecssub) % 2 ^ 32)
  let ec := ec.store (f.p + f.num + 3) ((ec.ecsoffs - f.so) % 2 ^ 32)
  let ec := ec.store (f.p + f.num + 4) (ec.ecnpats % 2 ^ 32)
  let ec := ec.store (f.p + f.num + 5) tracing
  let ec := ec.store (f.p + 1) (f.num % 2 ^ 32)
  let ec := { ec with ecnpats := f.onp, ecssub := f.oecssub, ecnfunc := ec.ecnfunc + 1 }
  ec.store f.p (wcbFuncdef (ec.ecused - 1 - f.p))

end Ec

/-- `struct eprog`: the words and the memory of its string table. -/
structure Eprog where
  npats : Nat
  prog : List Wordcode
  strs : List UInt8
  deriving DecidableEq, Repr

def copyEcstr : KeyTree Eccstr → Block → Block
  | .nil, m => m
  | .node left right s, m => copyEcstr right (copyEcstr left (m.overwrite s.aoffs s.str.memory))

/-- `bld_eprog`; `raw` is what is in the memory before. -/
def bldEprog (ec : Ec) (raw : Nat → UInt8) : Eprog :=
  let ec := ec.ecadd wcbEnd
  { npats := ec.ecnpats
    prog := ec.ecbuf
    strs := (copyEcstr ec.ecstrs { allocated := ec.ecsoffs, byte := raw }).bytes 0 ec.ecsoffs }

/-- What `execfuncdef` makes of the words from `WC_FUNCDEF` on: the words of the names and the
program of the body.  `none` is a copy that leaves the string table. -/
def execfuncdef (code : List Wordcode) (strs : List UInt8) : Option (List Wordcode × Eprog) :=
  match code with
  | funcdef :: num :: code =>
    match code.drop num with
    | sbeg :: nstrs :: npats :: _tracing :: body =>
      if sbeg + nstrs ≤ strs.length then
        some (code.take num,
          { npats := npats
            prog := body.take (wcData funcdef - (num + 5))
            strs := (strs.drop sbeg).take nstrs })
      else none
    | _ => none
  | _ => none

end NextBSD.Zsh
