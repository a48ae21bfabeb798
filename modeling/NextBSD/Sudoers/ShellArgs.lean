import NextBSD.Iolog.JsonScalars
import NextBSD.Library.Cursor
import Mathlib.Data.List.TakeWhile

/-!
# The arguments of `sudo -s` and `sudo -i`

The front end joins the arguments to one command for the shell and escapes what may be special.
The policy joins the vector again and removes the escapes that are not in front of white space.
-/

namespace NextBSD.Sudoers.ShellArgs

open Iolog (Bytes)

structure CString where
  bytes : Bytes
  clean : 0 ∉ bytes
  deriving DecidableEq

def CString.memory (s : CString) : Bytes := s.bytes ++ [0]

def cstring (memory : Bytes) : CString where
  bytes := memory.takeWhile (· ≠ 0)
  clean := by
    intro h
    have hne := List.mem_takeWhile_imp h
    cases hne

/-- A fresh object of `n` bytes, which may hold anything. -/
def malloc (junk : Nat → UInt8) (n : Nat) : Cursor := Cursor.start ((List.range n).map junk)

def isalnum (c : UInt8) : Bool := (48 ≤ c && c ≤ 57) || (65 ≤ c && c ≤ 90) || (97 ≤ c && c ≤ 122)

def isPlain (c : UInt8) : Bool := isalnum c || c = 95 || c = 45 || c = 36

/-- The loop over one argument; the list is what may be read, its terminator included. -/
def copyArg : Bytes → Cursor → Option Cursor
  | [], _ => none
  | ch :: src, dst =>
    if ch = 0 then some dst
    else do
      let dst ← if isPlain ch then some dst else dst.put 92
      let dst ← dst.put ch
      copyArg src dst

def copyArgs : List CString → Cursor → Option Cursor
  | [], dst => some dst
  | av :: argv, dst => do
    let dst ← copyArg av.memory dst
    let dst ← dst.put 32
    copyArgs argv dst

def vectorSize (argv : List CString) : Nat := (argv.map fun av => av.bytes.length + 1).sum

/-- The part of `parse_args` that makes `cmnd`; `none` is a write outside of it. -/
def commandString (junk : Nat → UInt8) (argv : List CString) : Option Bytes := do
  let dst ← copyArgs argv (malloc junk (vectorSize argv * 2))
  let dst := if dst.before = [] then dst else dst.seek (dst.before.length - 1)
  let dst ← dst.poke 0
  pure dst.memory

def dashC : CString := { bytes := [45, 99], clean := by decide }

/-- The vector that `parse_args` passes on. -/
def rewritten (shell cmnd : CString) : List CString := [shell, dashC, cmnd]

def storeChar (ch : UInt8) (dst : Cursor) (size : Nat) : Option (Cursor × Nat) :=
  if 1 < size then (dst.put ch).map (·, size - 1) else some (dst, size)

def terminate (dst : Cursor) (size len : Nat) : Option (Nat × Cursor) :=
  if 0 < size then (dst.poke 0).map (len, ·) else some (len, dst)

/-- The loop of `strlcpy_unescape`.  The list is what may be read, so that a last byte that is no
terminator leads past the end. -/
def unescapeLoop : Bytes → Cursor → Nat → Nat → Option (Nat × Cursor)
  | [], _, _, _ => none
  | [ch], dst, size, len => if ch = 0 then terminate dst size len else none
  | ch :: next :: src, dst, size, len =>
    if ch = 0 then terminate dst size len
    else if ch = 92 ∧ next ≠ 0 ∧ Iolog.isspace next = false then do
      let (dst, size) ← storeChar next dst size
      unescapeLoop src dst size (len + 1)
    else do
      let (dst, size) ← storeChar ch dst size
      unescapeLoop (next :: src) dst size (len + 1)

def strlcpyUnescape (dst : Cursor) (src : Bytes) (size : Nat) : Option (Nat × Cursor) :=
  unescapeLoop src dst size 0

/-- What `strvec_join` ends with. -/
inductive Joined where
  | null
  | internalError
  | string (memory : Bytes)
  deriving DecidableEq, Repr

section
variable (cpy : Cursor → Bytes → Nat → Option (Nat × Cursor)) (sep : UInt8)

def joinLoop : List CString → Cursor → Nat → Option Joined
  | [], dst, _ =>
    -- the last separator becomes the terminator
    if dst.before = [] then none
    else ((dst.seek (dst.before.length - 1)).poke 0).map fun dst => .string dst.memory
  | av :: argv, dst, size => do
    let (n, copied) ← cpy dst av.memory size
    if size ≤ n then some .internalError
    else do
      let dst ← (copied.seek (dst.before.length + n)).put sep
      joinLoop argv dst (size - n - 1)

def strvecJoin (junk : Nat → UInt8) (argv : List CString) : Option Joined :=
  let size := vectorSize argv
  if size = 0 then some .null else joinLoop cpy sep argv (malloc junk size) size

end

/-- What `set_cmnd` makes `user.cmnd_args` of, for a vector of the front end in shell mode. -/
def shellCmndArgs (junk : Nat → UInt8) (argv : List CString) : Option Joined :=
  strvecJoin strlcpyUnescape 32 junk (argv.drop 1)

def escapeChar (c : UInt8) : Bytes := if isPlain c then [c] else [92, c]

def escapeArg (s : Bytes) : Bytes := s.flatMap escapeChar

def escapeBlanks (s : Bytes) : Bytes := s.flatMap fun c => if Iolog.isspace c then [92, c] else [c]

/-- What `strlcpy_unescape` copies if there is room. -/
def unescape : Bytes → Bytes
  | [] => []
  | [c] => [c]
  | c :: next :: s =>
    if c = 92 ∧ Iolog.isspace next = false then next :: unescape s else c :: unescape (next :: s)

theorem copyArg_eq {s : Bytes} (h : 0 ∉ s) (dst : Cursor) :
    copyArg (s ++ [0]) dst = dst.puts (escapeArg s) := by
  induction s generalizing dst with
  | nil => rfl
  | cons c s ih =>
    have hc : c ≠ 0 := fun heq => h (heq ▸ List.mem_cons_self)
    have htail : copyArg (s ++ [0]) = fun dst => dst.puts (escapeArg s) :=
      funext fun dst => ih (fun hmem => h (List.mem_cons_of_mem _ hmem)) dst
    rw [List.cons_append, copyArg, if_neg hc, escapeArg, List.flatMap_cons, Cursor.puts_append,
      escapeChar, htail]
    split
    · show (dst.put c).bind _ = ((dst.put c).bind _).bind _
      rw [Option.bind_assoc]
      rfl
    · show (dst.put 92).bind (fun dst => (dst.put c).bind _) =
        ((dst.put 92).bind fun dst => (dst.put c).bind _).bind _
      rw [Option.bind_assoc]
      refine congrArg _ (funext fun dst => ?_)
      rw [Option.bind_assoc]
      rfl

theorem copyArgs_eq (argv : List CString) (dst : Cursor) :
    copyArgs argv dst = dst.puts (argv.flatMap fun av => escapeArg av.bytes ++ [32]) := by
  induction argv generalizing dst with
  | nil => rfl
  | cons av argv ih =>
    rw [copyArgs, CString.memory, copyArg_eq av.clean, List.flatMap_cons, Cursor.puts_append,
      Cursor.puts_append, Option.bind_assoc]
    refine congrArg _ (funext fun dst => ?_)
    show (dst.put 32).bind _ = ((dst.put 32).bind _).bind _
    rw [Option.bind_assoc]
    exact congrArg _ (funext fun dst => ih dst)

theorem length_escapeArg_le (s : Bytes) : (escapeArg s).length ≤ 2 * s.length := by
  induction s with
  | nil => exact Nat.le_refl 0
  | cons c s ih =>
    have hc : (escapeChar c).length ≤ 2 := by
      unfold escapeChar
      split
      · exact Nat.le_succ 1
      · exact Nat.le_refl 2
    unfold escapeArg at ih ⊢
    rw [List.flatMap_cons, List.length_append, List.length_cons]
    omega

theorem length_copyArgs_le (argv : List CString) :
    (argv.flatMap fun av => escapeArg av.bytes ++ [32]).length ≤ vectorSize argv * 2 := by
  unfold vectorSize
  induction argv with
  | nil => exact Nat.le_refl 0
  | cons av argv ih =>
    have hav := length_escapeArg_le av.bytes
    rw [List.flatMap_cons, List.length_append, List.length_append, List.map_cons, List.sum_cons,
      List.length_singleton]
    omega

theorem flatMap_sep {α : Type} (f : α → Bytes) (sep : UInt8) {l : List α} (h : l ≠ []) :
    (l.flatMap fun a => f a ++ [sep]) = [sep].intercalate (l.map f) ++ [sep] := by
  induction l with
  | nil => exact absurd rfl h
  | cons a l ih =>
    cases l with
    | nil => rw [List.flatMap_singleton, List.map_singleton, List.intercalate_singleton]
    | cons b l =>
      rw [List.flatMap_cons, ih (List.cons_ne_nil b l)]
      simp only [List.map_cons, List.intercalate_cons_cons, List.append_assoc]

theorem terminate_last {text after : Bytes} {sep : UInt8} :
    ((Cursor.mk (text ++ [sep]) after).seek ((text ++ [sep]).length - 1)).poke 0 =
      some { before := text, after := 0 :: after } := by
  have hseek : (Cursor.mk (text ++ [sep]) after).seek ((text ++ [sep]).length - 1) =
      { before := text, after := sep :: after } := by
    rw [List.length_append, List.length_singleton, Nat.add_sub_cancel, Cursor.seek, Cursor.memory]
    dsimp only
    rw [List.append_assoc, List.take_left, List.drop_left]
    rfl
  rw [hseek]
  rfl

theorem commandString_eq (junk : Nat → UInt8) {argv : List CString} (h : argv ≠ []) :
    ∃ rest, commandString junk argv =
      some ([32].intercalate (argv.map fun av => escapeArg av.bytes) ++ 0 :: rest) := by
  have hfits : (argv.flatMap fun av => escapeArg av.bytes ++ [32]).length ≤
      (malloc junk (vectorSize argv * 2)).after.length := by
    have hle := length_copyArgs_le argv
    unfold malloc Cursor.start
    rwa [List.length_map, List.length_range]
  have hcopied := copyArgs_eq argv (malloc junk (vectorSize argv * 2))
  rw [Cursor.puts_eq hfits, flatMap_sep _ _ h] at hcopied
  unfold commandString
  rw [hcopied]
  simp only [malloc, Cursor.start, List.nil_append, Option.bind_eq_bind, Option.bind_some,
    List.append_ne_nil_of_right_ne_nil _ (List.cons_ne_nil _ _), if_false, terminate_last]
  exact ⟨_, rfl⟩

theorem length_unescape_le (s : Bytes) : (unescape s).length ≤ s.length := by
  induction s using unescape.induct with
  | case1 => exact Nat.le_refl 0
  | case2 c => exact Nat.le_refl 1
  | case3 c next s h ih =>
    rw [unescape, if_pos h]
    simp only [List.length_cons]
    omega
  | case4 c next s h ih =>
    rw [unescape, if_neg h]
    simp only [List.length_cons] at ih ⊢
    omega

theorem storeChar_eq {dst : Cursor} {size : Nat} (ch : UInt8) (hsize : 1 < size)
    (hdst : size ≤ dst.after.length) :
    storeChar ch dst size =
      some ({ before := dst.before ++ [ch], after := dst.after.drop 1 }, size - 1) := by
  unfold storeChar
  rw [if_pos hsize, Cursor.put_eq (by omega)]
  rfl

theorem round_eq {ch : UInt8} {text src : Bytes} {dst : Cursor} {size len : Nat}
    (hsize : (ch :: text).length < size) (hdst : size ≤ dst.after.length)
    (ih : ∀ {dst : Cursor} {size : Nat} (len : Nat), text.length < size →
      size ≤ dst.after.length → unescapeLoop src dst size len = some (len + text.length,
        { before := dst.before ++ text, after := 0 :: dst.after.drop (text.length + 1) })) :
    (storeChar ch dst size).bind (fun p => unescapeLoop src p.1 p.2 (len + 1)) =
      some (len + (ch :: text).length,
        { before := dst.before ++ ch :: text
          after := 0 :: dst.after.drop ((ch :: text).length + 1) }) := by
  rw [List.length_cons] at hsize
  rw [storeChar_eq ch (by omega) hdst, Option.bind_some]
  rw [ih (len + 1) (by omega) (by simp only [List.length_drop]; omega), List.drop_drop,
    List.append_assoc, List.length_cons, Nat.add_comm 1 (text.length + 1), Nat.add_assoc len,
    Nat.add_comm 1]
  rfl

theorem unescapeLoop_eq {s : Bytes} (hs : 0 ∉ s) {dst : Cursor} {size : Nat} (len : Nat)
    (hsize : (unescape s).length < size) (hdst : size ≤ dst.after.length) :
    unescapeLoop (s ++ [0]) dst size len = some (len + (unescape s).length,
      { before := dst.before ++ unescape s
        after := 0 :: dst.after.drop ((unescape s).length + 1) }) := by
  have hend : ∀ {dst : Cursor} {size : Nat} (len : Nat), ([] : Bytes).length < size →
      size ≤ dst.after.length → unescapeLoop [0] dst size len = some (len + ([] : Bytes).length,
        { before := dst.before ++ [], after := 0 :: dst.after.drop 1 }) := by
    intro dst size len hsize hdst
    have hpos : 0 < size := hsize
    rw [unescapeLoop, if_pos rfl, terminate, if_pos hpos, Cursor.poke_eq (by omega),
      List.append_nil]
    rfl
  induction s using unescape.induct generalizing dst size len with
  | case1 => exact hend len hsize hdst
  | case2 c =>
    have hc : c ≠ 0 := fun heq => hs (heq ▸ List.mem_cons_self)
    rw [List.singleton_append, unescapeLoop, if_neg hc, if_neg (fun h => h.2.1 rfl)]
    exact round_eq hsize hdst hend
  | case3 c next s h ih =>
    obtain ⟨hc, hnext, hs⟩ : c ≠ 0 ∧ next ≠ 0 ∧ 0 ∉ s := by
      simp only [List.mem_cons, not_or] at hs
      exact ⟨Ne.symm hs.1, Ne.symm hs.2.1, hs.2.2⟩
    rw [unescape, if_pos h] at hsize ⊢
    rw [List.cons_append, List.cons_append, unescapeLoop, if_neg hc, if_pos ⟨h.1, hnext, h.2⟩]
    exact round_eq hsize hdst fun len => ih hs len
  | case4 c next s h ih =>
    obtain ⟨hc, hs⟩ : c ≠ 0 ∧ 0 ∉ next :: s := by
      rw [List.mem_cons, not_or] at hs
      exact ⟨Ne.symm hs.1, hs.2⟩
    rw [unescape, if_neg h] at hsize ⊢
    rw [List.cons_append, List.cons_append, unescapeLoop, if_neg hc,
      if_neg fun hboth => h ⟨hboth.1, hboth.2.2⟩]
    exact round_eq hsize hdst fun len => ih hs len

theorem joinLoop_eq {argv : List CString} {dst : Cursor} (sep : UInt8)
    (hroom : vectorSize argv ≤ dst.after.length)
    (hne : argv ≠ [] ∨ ∃ text, dst.before = text ++ [sep]) :
    ∃ text rest, dst.before ++ (argv.flatMap fun av => unescape av.bytes ++ [sep]) =
        text ++ [sep] ∧
      joinLoop strlcpyUnescape sep argv dst dst.after.length =
        some (.string (text ++ 0 :: rest)) := by
  induction argv generalizing dst with
  | nil =>
    obtain hnil | ⟨text, htext⟩ := hne
    · exact absurd rfl hnil
    · refine ⟨text, dst.after, by rw [List.flatMap_nil, List.append_nil, htext], ?_⟩
      obtain ⟨before, after⟩ := dst
      subst htext
      rw [joinLoop, if_neg (by simp), terminate_last]
      rfl
  | cons av argv ih =>
    obtain ⟨before, after⟩ := dst
    have hle := length_unescape_le av.bytes
    rw [vectorSize, List.map_cons, List.sum_cons] at hroom
    dsimp only at hroom ⊢
    have hcopy := @unescapeLoop_eq _ av.clean ⟨before, after⟩ _ 0
      (show (unescape av.bytes).length < after.length by omega) (Nat.le_refl _)
    have htail : vectorSize argv ≤ (after.drop ((unescape av.bytes).length + 1)).length := by
      rw [List.length_drop]
      unfold vectorSize
      omega
    obtain ⟨text, rest, htext, hjoin⟩ :=
      @ih ⟨before ++ unescape av.bytes ++ [sep], after.drop ((unescape av.bytes).length + 1)⟩
        htail (.inr ⟨_, rfl⟩)
    refine ⟨text, rest, ?_, ?_⟩
    · rw [← htext, List.flatMap_cons]
      simp only [List.append_assoc]
    · rw [joinLoop, strlcpyUnescape, CString.memory, hcopy, ← hjoin]
      simp only [Option.bind_eq_bind, Option.bind_some, Nat.zero_add]
      rw [if_neg (by omega), Cursor.seek_length List.length_append]
      rw [List.length_drop, Nat.sub_sub]
      rfl

theorem unescape_cons {c : UInt8} (hc : c ≠ 92) (s : Bytes) :
    unescape (c :: s) = c :: unescape s := by
  cases s with
  | nil => rfl
  | cons next s => rw [unescape, if_neg fun h => hc h.1]

theorem isPlain_class : ∀ c, isPlain c = true → c ≠ 92 ∧ Iolog.isspace c = false :=
  Iolog.forall_byte (by decide +kernel)

theorem unescape_escapeArg (arg s : Bytes) :
    unescape (escapeArg arg ++ s) = escapeBlanks arg ++ unescape s := by
  induction arg with
  | nil => rfl
  | cons c arg ih =>
    unfold escapeArg escapeBlanks at ih ⊢
    rw [List.flatMap_cons, List.flatMap_cons, escapeChar]
    by_cases hc : isPlain c = true
    · obtain ⟨hne, hspace⟩ := isPlain_class c hc
      rw [if_pos hc, hspace, if_neg Bool.false_ne_true, List.append_assoc, List.append_assoc]
      rw [List.singleton_append, List.singleton_append, unescape_cons hne, ih]
    · rw [if_neg hc, List.append_assoc, List.append_assoc, List.cons_append, List.singleton_append,
        unescape]
      by_cases hspace : Iolog.isspace c = true
      · have hne : c ≠ 92 := by
          rintro rfl
          cases hspace
        rw [if_neg (by simp [hspace]), if_pos hspace, unescape_cons hne, ih,
          List.cons_append, List.singleton_append]
      · rw [if_pos (by simpa using hspace), if_neg hspace, ih, List.singleton_append]

theorem unescape_commandString (args : List CString) :
    unescape ([32].intercalate (args.map fun av => escapeArg av.bytes)) =
      [32].intercalate (args.map fun av => escapeBlanks av.bytes) := by
  induction args with
  | nil => rfl
  | cons arg args ih =>
    cases args with
    | nil =>
      have harg := unescape_escapeArg arg.bytes []
      rw [List.append_nil, unescape, List.append_nil] at harg
      rw [List.map_singleton, List.map_singleton, List.intercalate_singleton,
        List.intercalate_singleton]
      exact harg
    | cons next args =>
      rw [List.map_cons, List.map_cons] at ih
      simp only [List.map_cons, List.intercalate_cons_cons, List.append_assoc]
      rw [unescape_escapeArg, List.singleton_append, unescape_cons (by decide), ih]
      rfl

theorem cstring_append {text : Bytes} (rest : Bytes) (h : 0 ∉ text) :
    (cstring (text ++ 0 :: rest)).bytes = text := by
  unfold cstring
  dsimp only
  rw [List.takeWhile_append_of_pos fun c hc => ?_]
  · exact List.append_nil text
  · exact decide_eq_true fun heq => h (heq ▸ hc)

theorem zero_not_mem_intercalate {α : Type} {f : α → Bytes} {l : List α}
    (h : ∀ a ∈ l, 0 ∉ f a) : 0 ∉ [32].intercalate (l.map f) := by
  induction l with
  | nil => exact List.not_mem_nil
  | cons a l ih =>
    have htail := ih fun b hb => h b (List.mem_cons_of_mem _ hb)
    cases l with
    | nil =>
      rw [List.map_singleton, List.intercalate_singleton]
      exact h a List.mem_cons_self
    | cons b l =>
      rw [List.map_cons] at htail
      rw [List.map_cons, List.map_cons, List.intercalate_cons_cons]
      simp only [List.mem_append, List.mem_singleton, not_or]
      exact ⟨⟨h a List.mem_cons_self, by decide⟩, htail⟩

theorem zero_not_mem_flatMap {f : UInt8 → Bytes} (hf : ∀ c, 0 ∈ f c → c = 0) {s : Bytes}
    (h : 0 ∉ s) : 0 ∉ s.flatMap f := by
  intro hmem
  obtain ⟨c, hc, hzero⟩ := List.mem_flatMap.mp hmem
  exact h (hf c hzero ▸ hc)

theorem strvecJoin_eq (junk : Nat → UInt8) {argv : List CString} (h : argv ≠ []) :
    ∃ rest, strvecJoin strlcpyUnescape 32 junk argv =
      some (.string ([32].intercalate (argv.map fun av => unescape av.bytes) ++ 0 :: rest)) := by
  have hroom : (malloc junk (vectorSize argv)).after.length = vectorSize argv := by
    unfold malloc Cursor.start
    rw [List.length_map, List.length_range]
  have hpos : vectorSize argv ≠ 0 := by
    obtain ⟨av, argv, rfl⟩ := List.exists_cons_of_ne_nil h
    rw [vectorSize, List.map_cons, List.sum_cons]
    omega
  obtain ⟨text, rest, htext, hjoin⟩ := joinLoop_eq 32 (Nat.le_of_eq hroom.symm) (.inl h)
  rw [show (malloc junk (vectorSize argv)).before = [] from rfl, List.nil_append,
    flatMap_sep _ _ h] at htext
  rw [hroom] at hjoin
  refine ⟨rest, ?_⟩
  unfold strvecJoin
  dsimp only
  rw [if_neg hpos, hjoin, List.append_cancel_right htext]

/-- The command string fits, and the policy gets `-c` and the arguments with a backslash in front
of their white space only; any other vector is joined within bounds and without an error too. -/
theorem shell_args_intact (junk junk' : Nat → UInt8) (shell arg : CString) (args : List CString)
    (argv : List CString) :
    (∃ cmnd joined, commandString junk (arg :: args) = some cmnd ∧
      shellCmndArgs junk' (rewritten shell (cstring cmnd)) = some (.string joined) ∧
      (cstring joined).bytes = Iolog.ascii "-c " ++
        [32].intercalate ((arg :: args).map fun av => escapeBlanks av.bytes)) ∧
    ∃ result, strvecJoin strlcpyUnescape 32 junk' argv = some result ∧ result ≠ .internalError := by
  constructor
  · obtain ⟨rest, hcmnd⟩ := commandString_eq junk (List.cons_ne_nil arg args)
    have hclean : 0 ∉ [32].intercalate ((arg :: args).map fun av => escapeArg av.bytes) := by
      refine zero_not_mem_intercalate fun av _ => zero_not_mem_flatMap (fun c hc => ?_) av.clean
      unfold escapeChar at hc
      split at hc
      · exact (List.mem_singleton.mp hc).symm
      · simpa [eq_comm] using hc
    have hjoined : 0 ∉ [32].intercalate ((arg :: args).map fun av => escapeBlanks av.bytes) := by
      refine zero_not_mem_intercalate fun av _ => zero_not_mem_flatMap (fun c hc => ?_) av.clean
      split at hc
      · simpa [eq_comm] using hc
      · exact (List.mem_singleton.mp hc).symm
    obtain ⟨rest', hjoin⟩ := strvecJoin_eq junk'
      (List.cons_ne_nil dashC [cstring (_ ++ 0 :: rest)])
    refine ⟨_, _, hcmnd, hjoin, ?_⟩
    rw [List.map_cons, List.map_singleton, cstring_append rest hclean, unescape_commandString,
      List.intercalate_cons_cons, List.intercalate_singleton]
    refine cstring_append rest' ?_
    rw [List.mem_append, not_or]
    exact ⟨by decide, hjoined⟩
  · by_cases hne : argv = []
    · exact ⟨.null, by rw [hne]; rfl, fun h => by cases h⟩
    · obtain ⟨rest, hjoin⟩ := strvecJoin_eq junk' hne
      exact ⟨_, hjoin, fun h => by cases h⟩

end NextBSD.Sudoers.ShellArgs
