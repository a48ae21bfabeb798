import NextBSD.Libpkg.Manifest.Types

/-!
# triggers.c: deferred triggers

A trigger that is deferred is saved in a file with its arguments in front of the script, between
lines that are comments for Lua.  The reader looks for these lines everywhere, and it does not look
at the two characters that begin them.
-/

namespace NextBSD.Libpkg.Triggers

open Manifest (Bytes ascii)

/-- `save_trigger`: what is written. -/
def saveTrigger (script : Bytes) (sandbox : Bool) (args : List Bytes) : Bytes :=
  (if sandbox then ascii "--sandbox\n" else []) ++ ascii "--begin args\n" ++
    args.flatMap (fun arg => ascii "-- " ++ arg ++ ascii "\n") ++ ascii "--end args\n--\n" ++
    script ++ ascii "\n"

def fileLines : Bytes → List Bytes
  | [] => []
  | c :: rest =>
    if c = 10 then [c] :: fileLines rest
    else
      match fileLines rest with
      | [] => [[c]]
      | line :: lines => (c :: line) :: lines

/-- The variables of `exec_deferred`.  `buffer` is what was written to the memory of `line`. -/
structure DeferredState where
  buffer : Bytes
  sandbox : Bool
  args : List Bytes
  inargs : Bool
  script : Option Bytes

/-- `getline` writes a line and a null over what is in the buffer. -/
def getlineInto (buffer line : Bytes) : Bytes := line ++ 0 :: buffer.drop (line.length + 1)

/-- `strncmp(walk, word, strlen(word)) == 0`. -/
def startsWith (word walk : Bytes) : Bool := word.isPrefixOf walk

def cstring (memory : Bytes) : Bytes := memory.takeWhile (· ≠ 0)

def pkghashSafeAdd (table : List Bytes) (key : Bytes) : List Bytes :=
  if key ∈ table then table else table ++ [key]

/-- `line[linelen - 1] = '\0'`, if there is a newline. -/
def cutNewline (buffer line : Bytes) : Bytes :=
  if line.getLast? = some 10 then buffer.set (line.length - 1) 0 else buffer

/-- The body of the loop of `exec_deferred`. -/
def readLine (st : DeferredState) (line : Bytes) : DeferredState :=
  let buffer := getlineInto st.buffer line
  let st := { st with buffer := buffer }
  if startsWith (ascii "sandbox") (buffer.drop 2) then { st with sandbox := true }
  else if startsWith (ascii "begin args") (buffer.drop 2) then { st with inargs := true }
  else if startsWith (ascii "end args") (buffer.drop 2) then
    { st with inargs := false, script := some [] }
  else
    let st :=
      if st.inargs then
        let buffer := cutNewline buffer line
        { st with buffer := buffer, args := pkghashSafeAdd st.args (cstring (buffer.drop 3)) }
      else st
    { st with script := st.script.map (· ++ cstring st.buffer) }

/-- What `trigger_execute_lua` is called with. -/
structure TriggerCall where
  script : Bytes
  sandbox : Bool
  args : List Bytes
  deriving DecidableEq, Repr

def DeferredState.start : DeferredState :=
  { buffer := [], sandbox := false, args := [], inargs := false, script := none }

def execDeferred (file : Bytes) : Option TriggerCall :=
  let st := (fileLines file).foldl readLine .start
  st.script.map fun script => { script := script, sandbox := st.sandbox, args := st.args }

def Control (line : Bytes) : Prop :=
  ascii "sandbox" <+: line.drop 2 ∨ ascii "begin args" <+: line.drop 2 ∨
    ascii "end args" <+: line.drop 2

def TriggerCall.Restores (call : TriggerCall) (script : Bytes) (sandbox : Bool)
    (args : List Bytes) : Prop :=
  call.sandbox = sandbox ∧ (∀ arg, arg ∈ call.args ↔ arg ∈ args) ∧
    call.script = ascii "--\n" ++ script ++ ascii "\n"

theorem fileLines_line {line : Bytes} (h : 10 ∉ line) (rest : Bytes) :
    fileLines (line ++ 10 :: rest) = (line ++ [10]) :: fileLines rest := by
  induction line with
  | nil => rfl
  | cons c line ih =>
    have hc : c ≠ 10 := fun heq => h (heq ▸ List.mem_cons_self)
    rw [List.cons_append, fileLines, if_neg hc, ih fun hmem => h (List.mem_cons_of_mem _ hmem)]
    rfl

theorem flatten_fileLines (file : Bytes) : (fileLines file).flatten = file := by
  induction file with
  | nil => rfl
  | cons c rest ih =>
    rw [fileLines]
    split
    case isTrue h => rw [List.flatten_cons, ih]; rfl
    case isFalse h =>
      split
      case h_1 hnil => rw [hnil] at ih; rw [← ih]; rfl
      case h_2 line lines hcons => rw [hcons] at ih; rw [← ih]; rfl

theorem fileLines_ne_nil {file line : Bytes} (h : line ∈ fileLines file) : line ≠ [] := by
  induction file generalizing line with
  | nil => exact absurd h List.not_mem_nil
  | cons c rest ih =>
    rw [fileLines] at h
    split at h
    case isTrue hc =>
      rcases List.mem_cons.mp h with rfl | h
      · exact List.cons_ne_nil _ _
      · exact ih h
    case isFalse hc =>
      split at h
      case h_1 hnil => exact (List.mem_singleton.mp h) ▸ List.cons_ne_nil _ _
      case h_2 first lines hcons =>
        rcases List.mem_cons.mp h with rfl | h
        · exact List.cons_ne_nil _ _
        · exact ih (hcons ▸ List.mem_cons_of_mem _ h)

theorem fileLines_args {args : List Bytes} (h : ∀ arg ∈ args, 10 ∉ arg) (rest : Bytes) :
    fileLines (args.flatMap (fun arg => ascii "-- " ++ arg ++ ascii "\n") ++ rest) =
      args.map (fun arg => ascii "-- " ++ arg ++ ascii "\n") ++ fileLines rest := by
  induction args with
  | nil => rfl
  | cons arg args ih =>
    have harg : 10 ∉ ascii "-- " ++ arg := by
      rw [List.mem_append, not_or]
      exact ⟨by decide, h arg List.mem_cons_self⟩
    have hline := fileLines_line harg
      (args.flatMap (fun arg => ascii "-- " ++ arg ++ ascii "\n") ++ rest)
    rw [List.flatMap_cons, List.map_cons, List.cons_append,
      ← ih fun arg h' => h arg (List.mem_cons_of_mem _ h')]
    rw [show ascii "\n" = [10] from rfl] at hline ⊢
    rw [← hline]
    simp

/-! ## One line -/

theorem control_iff (line : Bytes) :
    Control line ↔ (startsWith (ascii "sandbox") (line.drop 2) ||
      startsWith (ascii "begin args") (line.drop 2) ||
      startsWith (ascii "end args") (line.drop 2)) = true := by
  simp only [Control, startsWith, Bool.or_eq_true, List.isPrefixOf_iff_prefix, or_assoc]

instance (line : Bytes) : Decidable (Control line) := decidable_of_iff _ (control_iff line).symm

theorem isPrefix_of_isPrefix_null {word line rest : Bytes} (hword : 0 ∉ word)
    (h : word <+: line ++ 0 :: rest) : word <+: line := by
  by_cases hlen : word.length ≤ line.length
  · exact List.prefix_of_prefix_length_le h (List.prefix_append _ _) hlen
  · have hmem : line ++ [0] <+: word := by
      refine List.prefix_of_prefix_length_le ?_ h (by simp; omega)
      exact ⟨rest, by simp⟩
    exact absurd (hmem.subset (by simp)) hword

theorem Control.append {line : Bytes} (h : Control line) (hlen : 2 ≤ line.length) (rest : Bytes) :
    Control (line ++ rest) := by
  unfold Control
  rw [List.drop_append_of_le_length hlen]
  exact h.imp (·.trans (List.prefix_append _ _))
    (Or.imp (·.trans (List.prefix_append _ _)) (·.trans (List.prefix_append _ _)))

theorem Control.of_append {line rest : Bytes} (hlen : 2 ≤ line.length)
    (h : Control (line ++ 0 :: rest)) : Control line := by
  unfold Control at h ⊢
  rw [List.drop_append_of_le_length hlen] at h
  exact h.imp (isPrefix_of_isPrefix_null (by decide))
    (Or.imp (isPrefix_of_isPrefix_null (by decide)) (isPrefix_of_isPrefix_null (by decide)))

theorem Control.two_le_length {line : Bytes} (h : Control line) : 2 ≤ line.length := by
  by_contra hlen
  have hnil : line.drop 2 = [] := List.drop_eq_nil_of_le (by omega)
  unfold Control at h
  rw [hnil] at h
  revert h
  decide

theorem control_getlineInto {buffer line : Bytes} (hne : line ≠ [])
    (hbuffer : ¬Control buffer) (hline : ¬Control line) : ¬Control (getlineInto buffer line) := by
  unfold getlineInto
  by_cases hlen : 2 ≤ line.length
  · exact fun h => hline (Control.of_append hlen h)
  · obtain ⟨c, rfl⟩ : ∃ c, line = [c] :=
      List.length_eq_one_iff.mp (by have := List.length_pos_iff.mpr hne; omega)
    exact hbuffer

theorem readLine_plain {st : DeferredState} {line : Bytes}
    (h : ¬Control (getlineInto st.buffer line)) :
    readLine st line =
      if st.inargs then
        let buffer := cutNewline (getlineInto st.buffer line) line
        { st with
          buffer := buffer
          args := pkghashSafeAdd st.args (cstring (buffer.drop 3))
          script := st.script.map (· ++ cstring buffer) }
      else
        { st with
          buffer := getlineInto st.buffer line
          script := st.script.map (· ++ cstring (getlineInto st.buffer line)) } := by
  rw [control_iff, Bool.not_eq_true, Bool.or_eq_false_iff, Bool.or_eq_false_iff] at h
  obtain ⟨⟨hsandbox, hbegin⟩, hend⟩ := h
  unfold readLine
  simp only [hsandbox, hbegin, hend, Bool.false_eq_true, if_false]
  split <;> rfl

theorem readLine_control {st : DeferredState} {line : Bytes}
    (h : Control (getlineInto st.buffer line)) :
    (readLine st line).script = st.script ∨ (readLine st line).script = some [] := by
  rw [control_iff] at h
  unfold readLine
  dsimp only
  split
  · exact Or.inl rfl
  · split
    · exact Or.inl rfl
    · split
      · exact Or.inr rfl
      · rename_i hsandbox hbegin hend
        simp [hsandbox, hbegin, hend] at h

theorem cstring_append_null {line : Bytes} (h : 0 ∉ line) (rest : Bytes) :
    cstring (line ++ 0 :: rest) = line := by
  unfold cstring
  have hline : ∀ c ∈ line, decide (c ≠ 0) = true := by
    intro c hc
    rw [decide_eq_true_eq]
    rintro rfl
    exact h hc
  rw [List.takeWhile_append_of_pos hline]
  simp

theorem length_cstring_le (line rest : Bytes) : (cstring (line ++ 0 :: rest)).length ≤ line.length := by
  unfold cstring
  induction line with
  | nil => simp
  | cons c line ih =>
    rw [List.cons_append, List.takeWhile_cons]
    split
    · exact Nat.succ_le_succ ih
    · exact Nat.zero_le _

theorem length_cstring_cutNewline_le (buffer line : Bytes) :
    (cstring (cutNewline (getlineInto buffer line) line)).length ≤ line.length := by
  unfold cutNewline getlineInto
  split
  case isTrue h =>
    have hne : line ≠ [] := by
      rintro rfl
      simp at h
    have hlen : line.length - 1 < line.length := by
      have := List.length_pos_iff.mpr hne
      omega
    rw [List.set_append_left _ _ hlen]
    exact (length_cstring_le _ _).trans (by rw [List.length_set])
  case isFalse => exact length_cstring_le _ _

theorem readLine_script_length {st : DeferredState} {script : Bytes} (hscript : st.script = some script)
    {line : Bytes} (hne : line ≠ []) :
    ∃ script', (readLine st line).script = some script' ∧
      script'.length ≤ script.length + line.length ∧
      (Control line → script'.length < script.length + line.length) := by
  have hpos := List.length_pos_iff.mpr hne
  by_cases h : Control (getlineInto st.buffer line)
  · rcases readLine_control h with hsame | hempty
    · exact ⟨script, hsame.trans hscript, by omega, fun _ => by omega⟩
    · exact ⟨[], hempty, by simp, fun _ => by rw [List.length_nil]; omega⟩
  · have hline : ¬Control line := fun hcontrol => h (hcontrol.append hcontrol.two_le_length _)
    rw [readLine_plain h]
    split
    · refine ⟨script ++ cstring (cutNewline (getlineInto st.buffer line) line), by simp [hscript],
        ?_, fun hcontrol => absurd hcontrol hline⟩
      have hlen := length_cstring_cutNewline_le st.buffer line
      rw [List.length_append]
      omega
    · refine ⟨script ++ cstring (getlineInto st.buffer line), by simp [hscript], ?_,
        fun hcontrol => absurd hcontrol hline⟩
      have hlen := length_cstring_le line (st.buffer.drop (line.length + 1))
      rw [List.length_append]
      unfold getlineInto
      omega

theorem foldl_script_length {lines : List Bytes} (hne : ∀ line ∈ lines, line ≠ [])
    {st : DeferredState} {script : Bytes} (hscript : st.script = some script) :
    ∃ script', (lines.foldl readLine st).script = some script' ∧
      script'.length ≤ script.length + lines.flatten.length ∧
      ((∃ line ∈ lines, Control line) → script'.length < script.length + lines.flatten.length) := by
  induction lines generalizing st script with
  | nil => exact ⟨script, hscript, by simp, by simp⟩
  | cons line lines ih =>
    obtain ⟨first, hfirst, hle, hlt⟩ := readLine_script_length hscript (hne line List.mem_cons_self)
    obtain ⟨script', hrest, hle', hlt'⟩ := ih (fun l h => hne l (List.mem_cons_of_mem _ h)) hfirst
    refine ⟨script', hrest, ?_, ?_⟩
    · rw [List.flatten_cons, List.length_append]
      omega
    · rw [List.flatten_cons, List.length_append]
      rintro ⟨l, hmem, hcontrol⟩
      rcases List.mem_cons.mp hmem with rfl | hmem
      · have := hlt hcontrol
        omega
      · have := hlt' ⟨l, hmem, hcontrol⟩
        omega

theorem foldl_script {lines : List Bytes} (hne : ∀ line ∈ lines, line ≠ [])
    (hnull : ∀ line ∈ lines, 0 ∉ line) (hplain : ∀ line ∈ lines, ¬Control line)
    {st : DeferredState} {script : Bytes} (hscript : st.script = some script)
    (hinargs : st.inargs = false) (hbuffer : ¬Control st.buffer) :
    (lines.foldl readLine st).script = some (script ++ lines.flatten) ∧
      (lines.foldl readLine st).sandbox = st.sandbox ∧
      (lines.foldl readLine st).args = st.args := by
  induction lines generalizing st script with
  | nil => exact ⟨by simpa using hscript, rfl, rfl⟩
  | cons line lines ih =>
    have hcontrol := control_getlineInto (hne line List.mem_cons_self) hbuffer
      (hplain line List.mem_cons_self)
    have hread := readLine_plain hcontrol
    rw [hinargs, if_neg Bool.false_ne_true] at hread
    have hline : cstring (getlineInto st.buffer line) = line :=
      cstring_append_null (hnull line List.mem_cons_self) _
    have hrest := @ih (fun l h => hne l (List.mem_cons_of_mem _ h))
      (fun l h => hnull l (List.mem_cons_of_mem _ h))
      (fun l h => hplain l (List.mem_cons_of_mem _ h)) (readLine st line) (script ++ line)
      (by rw [hread]; simp [hscript, hline]) (by rw [hread]) (by rw [hread]; exact hcontrol)
    rw [List.foldl_cons, List.flatten_cons, ← List.append_assoc]
    refine ⟨hrest.1, ?_, ?_⟩
    · rw [hrest.2.1, hread]
    · rw [hrest.2.2, hread]

/-! ## The lines in front of the script -/

def argLine (arg : Bytes) : Bytes := ascii "-- " ++ arg ++ ascii "\n"

theorem not_control_argLine (arg : Bytes) : ¬Control (argLine arg) := by
  have hdrop : (argLine arg).drop 2 = 32 :: (arg ++ [10]) := by
    simp [argLine, ascii]
  unfold Control
  rw [hdrop]
  rintro (h | h | h)
  all_goals exact absurd (List.cons_prefix_cons.mp h).1 (by decide)

theorem readLine_argLine {st : DeferredState} (hscript : st.script = none)
    (hinargs : st.inargs = true) {arg : Bytes} (hnull : 0 ∉ arg) :
    (readLine st (argLine arg)).sandbox = st.sandbox ∧
      (readLine st (argLine arg)).args = pkghashSafeAdd st.args arg ∧
      (readLine st (argLine arg)).inargs = true ∧ (readLine st (argLine arg)).script = none := by
  have hlen : 2 ≤ (argLine arg).length := by
    simp [argLine, ascii]
  have hplain : ¬Control (getlineInto st.buffer (argLine arg)) :=
    fun h => not_control_argLine arg (Control.of_append hlen h)
  have hlast : (argLine arg).getLast? = some 10 := by
    rw [argLine]
    exact List.getLast?_concat
  have hcut : (cutNewline (getlineInto st.buffer (argLine arg)) (argLine arg)).drop 3 =
      arg ++ 0 :: 0 :: st.buffer.drop ((argLine arg).length + 1) := by
    rw [cutNewline, if_pos hlast, getlineInto, List.set_append_left _ _ (by omega)]
    have hset : (argLine arg).set ((argLine arg).length - 1) 0 = ascii "-- " ++ arg ++ [0] := by
      simp [argLine, ascii]
    rw [hset]
    simp [ascii]
  rw [readLine_plain hplain, hinargs, if_pos rfl]
  dsimp only
  rw [hcut, cstring_append_null hnull, hscript]
  exact ⟨rfl, rfl, rfl, rfl⟩

theorem mem_pkghashSafeAdd {table : List Bytes} {key arg : Bytes} :
    arg ∈ pkghashSafeAdd table key ↔ arg ∈ table ∨ arg = key := by
  unfold pkghashSafeAdd
  split
  case isTrue h =>
    constructor
    · exact Or.inl
    · rintro (h' | rfl)
      · exact h'
      · exact h
  case isFalse h => rw [List.mem_append, List.mem_singleton]

theorem foldl_argLine {args : List Bytes} (hnull : ∀ arg ∈ args, 0 ∉ arg) {st : DeferredState}
    (hscript : st.script = none) (hinargs : st.inargs = true) :
    ((args.map argLine).foldl readLine st).sandbox = st.sandbox ∧
      (∀ arg, arg ∈ ((args.map argLine).foldl readLine st).args ↔ arg ∈ st.args ∨ arg ∈ args) ∧
      ((args.map argLine).foldl readLine st).inargs = true ∧
      ((args.map argLine).foldl readLine st).script = none := by
  induction args generalizing st with
  | nil => exact ⟨rfl, by simp, hinargs, hscript⟩
  | cons arg args ih =>
    obtain ⟨hsandbox, hargs, hinargs', hscript'⟩ :=
      readLine_argLine hscript hinargs (hnull arg List.mem_cons_self)
    obtain ⟨hsandbox', hargs', hrest⟩ :=
      ih (fun arg h => hnull arg (List.mem_cons_of_mem _ h)) hscript' hinargs'
    refine ⟨hsandbox'.trans hsandbox, fun key => ?_, hrest⟩
    rw [List.map_cons, List.foldl_cons, hargs', hargs, mem_pkghashSafeAdd, List.mem_cons, or_assoc]

def headLines (sandbox : Bool) : List Bytes :=
  (if sandbox then [ascii "--sandbox\n"] else []) ++ [ascii "--begin args\n"]

theorem fileLines_saveTrigger (script : Bytes) (sandbox : Bool) {args : List Bytes}
    (hargs : ∀ arg ∈ args, 10 ∉ arg) :
    fileLines (saveTrigger script sandbox args) =
      headLines sandbox ++ (args.map argLine ++
        ([ascii "--end args\n", ascii "--\n"] ++ fileLines (script ++ ascii "\n"))) := by
  have hsandbox : ∀ rest, fileLines (ascii "--sandbox\n" ++ rest) =
      ascii "--sandbox\n" :: fileLines rest := fun _ => rfl
  have hbegin : ∀ rest, fileLines (ascii "--begin args\n" ++ rest) =
      ascii "--begin args\n" :: fileLines rest := fun _ => rfl
  have hend : ∀ rest, fileLines (ascii "--end args\n--\n" ++ rest) =
      [ascii "--end args\n", ascii "--\n"] ++ fileLines rest := fun _ => rfl
  have hmiddle := fileLines_args hargs (ascii "--end args\n--\n" ++ (script ++ ascii "\n"))
  rw [hend] at hmiddle
  unfold saveTrigger
  cases sandbox with
  | false =>
    rw [if_neg Bool.false_ne_true, List.nil_append, List.append_assoc, List.append_assoc,
      List.append_assoc, hbegin, hmiddle]
    rfl
  | true =>
    rw [if_pos rfl, List.append_assoc, List.append_assoc, List.append_assoc, List.append_assoc,
      hsandbox, hbegin, hmiddle]
    rfl

theorem foldl_headLines (sandbox : Bool) :
    ((headLines sandbox).foldl readLine .start).sandbox = sandbox ∧
      ((headLines sandbox).foldl readLine .start).args = [] ∧
      ((headLines sandbox).foldl readLine .start).inargs = true ∧
      ((headLines sandbox).foldl readLine .start).script = none := by
  cases sandbox <;> decide +kernel

theorem foldl_front (sandbox : Bool) {args : List Bytes} (hargs : ∀ arg ∈ args, 0 ∉ arg) :
    let st := (headLines sandbox ++ (args.map argLine ++
      [ascii "--end args\n", ascii "--\n"])).foldl readLine .start
    st.sandbox = sandbox ∧ (∀ arg, arg ∈ st.args ↔ arg ∈ args) ∧ st.inargs = false ∧
      st.script = some (ascii "--\n") ∧ ¬Control st.buffer := by
  obtain ⟨hsandbox, hnone, hinargs, hscript⟩ := foldl_headLines sandbox
  obtain ⟨hsandbox', hargs', -, -⟩ := foldl_argLine hargs hscript hinargs
  dsimp only
  rw [List.foldl_append, List.foldl_append]
  generalize (args.map argLine).foldl readLine ((headLines sandbox).foldl readLine .start) = st
    at hsandbox' hargs'
  have hlast : ¬Control (getlineInto (readLine st (ascii "--end args\n")).buffer
      (ascii "--\n")) := fun h => absurd (Control.of_append (by decide) h) (by decide)
  have hend : readLine st (ascii "--end args\n") =
      { st with
        buffer := getlineInto st.buffer (ascii "--end args\n"), inargs := false
        script := some [] } := rfl
  rw [List.foldl_cons, List.foldl_cons, List.foldl_nil, readLine_plain hlast, hend,
    if_neg Bool.false_ne_true]
  rw [hend] at hlast
  refine ⟨hsandbox'.trans hsandbox, fun arg => ?_, rfl, rfl, hlast⟩
  rw [hargs', hnone]
  simp

/-- A deferred trigger is run as it was saved just when no line of the script looks like one of the
reader's own from its third character on. -/
theorem execDeferred_restores_iff (script : Bytes) (sandbox : Bool) (args : List Bytes)
    (hscript : 0 ∉ script) (hargs : ∀ arg ∈ args, 10 ∉ arg ∧ 0 ∉ arg) :
    (∃ call, execDeferred (saveTrigger script sandbox args) = some call ∧
        call.Restores script sandbox args) ↔
      ∀ line ∈ fileLines (script ++ ascii "\n"), ¬Control line := by
  obtain ⟨hsandbox, hread, hinargs, hcomment, hbuffer⟩ :=
    foldl_front sandbox fun arg h => (hargs arg h).2
  have hfold : (fileLines (saveTrigger script sandbox args)).foldl readLine .start =
      (fileLines (script ++ ascii "\n")).foldl readLine ((headLines sandbox ++ (args.map argLine ++
        [ascii "--end args\n", ascii "--\n"])).foldl readLine .start) := by
    rw [fileLines_saveTrigger script sandbox fun arg h => (hargs arg h).1, ← List.foldl_append]
    simp only [List.append_assoc]
  have hflatten := flatten_fileLines (script ++ ascii "\n")
  have hne : ∀ line ∈ fileLines (script ++ ascii "\n"), line ≠ [] :=
    fun line h => fileLines_ne_nil h
  unfold execDeferred
  dsimp only
  rw [hfold]
  generalize (headLines sandbox ++ (args.map argLine ++
    [ascii "--end args\n", ascii "--\n"])).foldl readLine .start = st at *
  constructor
  · rintro ⟨call, hcall, -, -, htext⟩ line hmem hcontrol
    obtain ⟨text, hfinal, -, hshort⟩ := foldl_script_length hne hcomment
    rw [hfinal] at hcall
    obtain rfl := Option.some.inj hcall
    have hlt := hshort ⟨line, hmem, hcontrol⟩
    obtain rfl : text = _ := htext
    rw [hflatten] at hlt
    simp at hlt
  · intro hplain
    have hnull : ∀ line ∈ fileLines (script ++ ascii "\n"), 0 ∉ line := by
      intro line hmem hzero
      have hzero : 0 ∈ script ++ ascii "\n" := by
        rw [← hflatten]
        exact List.mem_flatten_of_mem hmem hzero
      rw [List.mem_append] at hzero
      exact hzero.elim hscript (by decide)
    obtain ⟨htext, hsandbox', hargs'⟩ := foldl_script hne hnull hplain hcomment hinargs hbuffer
    refine ⟨_, by rw [htext]; rfl, hsandbox'.trans hsandbox, fun arg => ?_, ?_⟩
    · dsimp only
      rw [hargs', hread]
    · dsimp only
      rw [hflatten, List.append_assoc]

/-- Short lines and empty ones survive. -/
theorem execDeferred_restores_iff_short :
    (∃ call, execDeferred (saveTrigger (ascii "\nx\n\n") true [ascii "/usr/local"]) = some call ∧
        call.Restores (ascii "\nx\n\n") true [ascii "/usr/local"]) ↔
      ∀ line ∈ fileLines (ascii "\nx\n\n" ++ ascii "\n"), ¬Control line :=
  execDeferred_restores_iff (ascii "\nx\n\n") true [ascii "/usr/local"] (by decide) (by decide)

/-- A comment in the script that is taken for a flag. -/
theorem execDeferred_not_restores :
    ¬∃ call, execDeferred (saveTrigger (ascii "--sandbox\nf()") false [ascii "/usr"]) = some call ∧
      call.Restores (ascii "--sandbox\nf()") false [ascii "/usr"] := by
  have hrun : execDeferred (saveTrigger (ascii "--sandbox\nf()") false [ascii "/usr"]) =
      some { script := ascii "--\nf()\n", sandbox := true, args := [ascii "/usr"] } := by
    decide +kernel
  rintro ⟨call, hcall, hsandbox, -⟩
  obtain rfl := Option.some.inj (hrun.symm.trans hcall)
  exact absurd hsandbox (by decide)

end NextBSD.Libpkg.Triggers
