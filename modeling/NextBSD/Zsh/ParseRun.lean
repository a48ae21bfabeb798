import NextBSD.Zsh.WordBuffer

/-!
# Runs of the parser over its buffer

Beside the variables of the parser, a state has what the words are for: an item is a word, a
string, the redirection of a here-document or a whole function.  The parser adds and removes words
only between the items of the function body that it is in.
-/

namespace NextBSD.Zsh

/-- The redirection of a here-document.  `doc` is the text that was read for it, and the
terminator as it was munged for that. -/
structure Redir where
  id : Nat
  term : CStr
  doc : Option (CStr × CStr)
  head : Wordcode
  fd : Wordcode
  text : Wordcode
  raw : Wordcode
  munged : Wordcode
  var : Option (Wordcode × CStr)
  deriving DecidableEq, Repr

structure Header where
  funcdef : Wordcode
  num : Wordcode
  names : List (Wordcode × CStr)
  sbeg : Wordcode
  nstrs : Wordcode
  npats : Wordcode
  tracing : Wordcode
  deriving DecidableEq, Repr

inductive Item where
  | word (w : Wordcode)
  | str (w : Wordcode) (s : CStr)
  | redir (r : Redir)
  | func (h : Header) (body : List Item)
  deriving Repr

def Redir.words (r : Redir) : List Wordcode :=
  [r.head, r.fd, r.text, r.raw, r.munged] ++ (r.var.map Prod.fst).toList

def Header.words (h : Header) : List Wordcode :=
  h.funcdef :: h.num :: (h.names.map Prod.fst ++ [h.sbeg, h.nstrs, h.npats, h.tracing])

def reads (tab : List UInt8) (slot : Wordcode × CStr) : Bool :=
  ecgetstr tab slot.1 = some (slot.2.bytes, hasToken slot.2)

def Redir.readable (tab : List UInt8) (r : Redir) : Bool :=
  (match r.doc with
    | some (doc, munged) =>
      reads tab (r.text, doc) && reads tab (r.raw, r.term) && reads tab (r.munged, munged)
    | none => false) && r.var.toList.all (reads tab)

mutual

def Item.words : Item → List Wordcode
  | .word w => [w]
  | .str w _ => [w]
  | .redir r => r.words
  | .func h body => h.words ++ wordsOf body

def wordsOf : List Item → List Wordcode
  | [] => []
  | it :: items => it.words ++ wordsOf items

end

mutual

def Item.marks : Item → List (Option Redir)
  | .word _ => [none]
  | .str _ _ => [none]
  | .redir r => some r :: List.replicate (r.words.length - 1) none
  | .func h body => List.replicate h.words.length none ++ marksOf body

def marksOf : List Item → List (Option Redir)
  | [] => []
  | it :: items => it.marks ++ marksOf items

end

mutual

def Item.update (k : Nat) (f : Redir → Redir) : Item → Item
  | .word w => .word w
  | .str w s => .str w s
  | .redir r => .redir (if r.id = k then f r else r)
  | .func h body => .func h (updateAll k f body)

def updateAll (k : Nat) (f : Redir → Redir) : List Item → List Item
  | [] => []
  | it :: items => it.update k f :: updateAll k f items

end

mutual

/-- Every string is read from the string table of the program or function body it is in: a
function's body is what `execfuncdef` copies.  `after` is the code that follows. -/
def Item.readable (tab : List UInt8) (after : List Wordcode) : Item → Bool
  | .word _ => true
  | .str w s => reads tab (w, s)
  | .redir r => r.readable tab
  | .func h body =>
    match execfuncdef (h.words ++ wordsOf body ++ after) tab with
    | some (names, e) =>
      (names = h.names.map Prod.fst && h.names.all (reads tab)) &&
        (e.prog = wordsOf body && allReadable e.strs [] body)
    | none => false

def allReadable (tab : List UInt8) (after : List Wordcode) : List Item → Bool
  | [] => true
  | it :: items => it.readable tab (wordsOf items ++ after) && allReadable tab after items

end

structure OpenFunction where
  funcdef : Funcdef
  before : List Item
  head : Header

structure Parse where
  ec : Ec
  items : List Item
  functions : List OpenFunction
  redirs : Nat

inductive Act where
  | ecadd (c : Wordcode)
  | pattern
  | ecstr (s : CStr)
  | ecispace (k : Nat) (stale : List Wordcode)
  | store (k : Nat) (c : Wordcode)
  | storeStr (k : Nat) (s : CStr)
  | ecdel (k : Nat)
  | heredoc (k type fd : Nat) (term : CStr) (idstring : Option CStr)
      (stale : Wordcode × Wordcode × Wordcode)
  | functionStart (num : Nat)
  | functionEnd (tracing : Wordcode)
  | gethere (doc munged : CStr)
  deriving DecidableEq, Repr

def Item.slot : Item → Option (Wordcode × CStr)
  | str w s => some (w, s)
  | _ => none

def isWord : Option Item → Bool
  | some (.word _) => true
  | _ => false

/-- The items before a function's header, and the words and the names of it that are there
before its body. -/
def headerOf (num : Nat) (items : List Item) :
    Option (List Item × Wordcode × Wordcode × List (Wordcode × CStr)) :=
  let k := items.length - (num + 2)
  match items.drop k with
  | .word funcdef :: .word n :: names =>
    if names.length = num then
      (names.mapM Item.slot).map fun names => (items.take k, funcdef, n, names)
    else none
  | _ => none

/-- The redirection that `par_redir` puts into the buffer. -/
def redirOf (ec : Ec) (type fd id : Nat) (term : CStr) (idstring : Option CStr)
    (stale : Wordcode × Wordcode × Wordcode) : Redir :=
  { id := id, term := term, doc := none
    head := wcbRedir (type ||| (if idstring.isSome then redirVaridMask else 0) |||
      redirFromHeredocMask)
    fd := fd, text := stale.1, raw := stale.2.1, munged := stale.2.2
    var := idstring.map fun s => ((ec.ecstrcode s).1, s) }

namespace Parse

def start : Parse := { ec := Ec.initParse, items := [], functions := [], redirs := 0 }

def base (st : Parse) : Nat :=
  match st.functions with
  | [] => 0
  | f :: _ => f.funcdef.p + f.funcdef.num + 6

def pos (st : Parse) (k : Nat) : Nat := st.base + (wordsOf (st.items.take k)).length

/-- A step of the parser.  `none` is a step that it does not take. -/
def step (st : Parse) : Act → Option Parse
  | .ecadd c => some { st with ec := st.ec.ecadd c, items := st.items ++ [.word c] }
  | .pattern =>
    some { st with
      ec := { st.ec.ecadd st.ec.ecnpats with ecnpats := st.ec.ecnpats + 1 }
      items := st.items ++ [.word st.ec.ecnpats] }
  | .ecstr s =>
    some { st with
      ec := st.ec.ecstr s
      items := st.items ++ [.str (st.ec.ecstrcode s).1 s] }
  | .ecispace k stale =>
    if k ≤ st.items.length then
      some { st with
        ec := st.ec.ecispace (st.pos k) stale
        items := st.items.take k ++ stale.map Item.word ++ st.items.drop k }
    else none
  | .store k c =>
    if isWord st.items[k]? then
      some { st with ec := st.ec.store (st.pos k) c, items := st.items.set k (.word c) }
    else none
  | .storeStr k s =>
    if isWord st.items[k]? then
      some { st with
        ec := st.ec.storeStr (st.pos k) s
        items := st.items.set k (.str (st.ec.ecstrcode s).1 s) }
    else none
  | .ecdel k =>
    if isWord st.items[k]? then
      some { st with ec := st.ec.ecdel (st.pos k), items := st.items.eraseIdx k }
    else none
  | .heredoc k type fd term idstring stale =>
    if k ≤ st.items.length then
      some { st with
        ec := st.ec.heredocRedir (st.pos k) type fd st.redirs term idstring stale
        items := st.items.take k ++
          [.redir (redirOf st.ec type fd st.redirs term idstring stale)] ++ st.items.drop k
        redirs := st.redirs + 1 }
    else none
  | .functionStart num =>
    match headerOf num st.items with
    | some (before, funcdef, n, names) =>
      let f := st.ec.functionStart (st.base + (wordsOf before).length) num
      let head : Header :=
        { funcdef := funcdef, num := n, names := names, sbeg := 0, nstrs := 0, npats := 0,
          tracing := 0 }
      some { st with
        ec := f.2
        items := []
        functions := { funcdef := f.1, before := before, head := head } :: st.functions }
    | none => none
  | .functionEnd tracing =>
    match st.functions with
    | [] => none
    | f :: functions =>
      let body := st.items ++ [.word wcbEnd]
      let skip := f.head.names.length + 5 + (wordsOf body).length
      let head : Header :=
        { funcdef := wcbFuncdef skip
          num := f.funcdef.num % 2 ^ 32
          names := f.head.names
          sbeg := (f.funcdef.so - f.funcdef.oecssub) % 2 ^ 32
          nstrs := (st.ec.ecsoffs - f.funcdef.so) % 2 ^ 32
          npats := st.ec.ecnpats % 2 ^ 32
          tracing := tracing }
      some { st with
        ec := st.ec.functionEnd f.funcdef tracing
        items := f.before ++ [.func head body]
        functions := functions }
  | .gethere doc munged =>
    match st.ec.hdocs, st.ec.gethere doc munged with
    | h :: _, some ec =>
      -- The words that `setheredoc` stores, where they are.
      let done (r : Redir) : Redir :=
        { r with
          doc := some (doc, munged)
          head := ec.ecbuf.getD h.pc 0
          text := ec.ecbuf.getD (h.pc + 2) 0
          raw := ec.ecbuf.getD (h.pc + 3) 0
          munged := ec.ecbuf.getD (h.pc + 4) 0 }
      some { st with
        ec := ec
        items := updateAll h.redir done st.items
        functions := st.functions.map fun f =>
          { f with before := updateAll h.redir done f.before } }
    | _, _ => none

end Parse

inductive Reach (C : Parse → Act → Prop) : Parse → Prop where
  | start : Reach C Parse.start
  | step {st st' : Parse} {act : Act} (h : Reach C st) (hC : C st act)
      (hstep : st.step act = some st') : Reach C st'

end NextBSD.Zsh
