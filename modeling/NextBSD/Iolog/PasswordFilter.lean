import NextBSD.Iolog.Json

/-!
# The password filter

`iolog_filter.c`: a prompt in the output of the terminal turns the filter on, and what is typed is
logged as stars up to the end of the line or the next output.  A regular expression is a predicate
on strings.  Buffers are shorter than `2 ^ 32` bytes, so that the index of the loop does not wrap.
-/

namespace NextBSD.Iolog

inductive IoEventType where
  | stdin
  | stdout
  | stderr
  | ttyin
  | ttyout
  | winsize
  | ttyoutOld
  | suspend
  deriving DecidableEq, Repr

structure IoEvent where
  event : IoEventType
  buf : Bytes
  deriving DecidableEq, Repr

/-- `struct pwfilt_handle`; a filter is what `regexec` answers for it. -/
@[ext]
structure PwfiltHandle where
  filters : List (Bytes → Bool)
  isFiltered : Bool

/-- `iolog_pwfilt_alloc`, with the patterns added since. -/
def iologPwfiltAlloc (filters : List (Bytes → Bool)) : PwfiltHandle :=
  { filters := filters, isFiltered := false }

def isLineEnd (c : UInt8) : Bool := c = 13 || c = 10

def promptMatches (filters : List (Bytes → Bool)) (buf : Bytes) : Bool :=
  filters.any (fun regexec => regexec ((buf ++ [0]).takeWhile (· ≠ 0)))

def iologPwfiltRun (handle : PwfiltHandle) (event : IoEventType) (buf : Bytes) :
    PwfiltHandle × Option Bytes :=
  match event with
  | .ttyout => ({ handle with isFiltered := promptMatches handle.filters buf }, none)
  | .ttyin =>
    if handle.isFiltered then
      let i := buf.findIdx isLineEnd
      ({ handle with isFiltered := decide (i = buf.length) },
        if i ≠ 0 then some (List.replicate i 42 ++ buf.drop i) else none)
    else (handle, none)
  | _ => (handle, none)

def logEvents (handle : PwfiltHandle) : List IoEvent → List Bytes
  | [] => []
  | e :: es =>
    (iologPwfiltRun handle e.event e.buf).2.getD e.buf ::
      logEvents (iologPwfiltRun handle e.event e.buf).1 es

def InLine (buf : Bytes) (i : Nat) : Prop := ∀ c ∈ buf.take (i + 1), isLineEnd c = false

/-- The place `i` of the event `k` is behind a prompt: no other output is between them, and no end
of a line. -/
def Hidden (filters : List (Bytes → Bool)) (es : List IoEvent) (k i : Nat) : Prop :=
  ∃ j prompt, j < k ∧ es[j]? = some ⟨.ttyout, prompt⟩ ∧ promptMatches filters prompt = true ∧
    (∀ l e, j < l → l < k → es[l]? = some e →
      e.event ≠ .ttyout ∧ (e.event = .ttyin → ∀ c ∈ e.buf, isLineEnd c = false)) ∧
    ∃ typed, es[k]? = some ⟨.ttyin, typed⟩ ∧ InLine typed i

def maskLine : Bytes → Bytes
  | [] => []
  | c :: buf => if isLineEnd c then c :: buf else 42 :: maskLine buf

theorem maskLine_cons (c : UInt8) (buf : Bytes) :
    maskLine (c :: buf) = if isLineEnd c then c :: buf else 42 :: maskLine buf := rfl

theorem maskLine_eq (buf : Bytes) :
    maskLine buf = List.replicate (buf.findIdx isLineEnd) 42 ++ buf.drop (buf.findIdx isLineEnd) := by
  induction buf with
  | nil => rfl
  | cons c buf ih =>
    unfold maskLine
    rw [List.findIdx_cons]
    cases hc : isLineEnd c with
    | true => rfl
    | false =>
      rw [if_neg Bool.false_ne_true, ih]
      rfl

theorem length_maskLine (buf : Bytes) : (maskLine buf).length = buf.length := by
  induction buf with
  | nil => rfl
  | cons c buf ih =>
    unfold maskLine
    split
    · rfl
    · rw [List.length_cons, List.length_cons, ih]

theorem inLine_zero {c : UInt8} {buf : Bytes} : InLine (c :: buf) 0 ↔ isLineEnd c = false := by
  unfold InLine
  simp

theorem inLine_succ {c : UInt8} {buf : Bytes} {i : Nat} :
    InLine (c :: buf) (i + 1) ↔ isLineEnd c = false ∧ InLine buf i := by
  unfold InLine
  rw [List.take_succ_cons, List.forall_mem_cons]

theorem not_inLine {c : UInt8} (hc : isLineEnd c = true) (buf : Bytes) (i : Nat) :
    ¬ InLine (c :: buf) i := by
  intro h
  have hfalse := h c List.mem_cons_self
  rw [hc] at hfalse
  exact Bool.noConfusion hfalse

theorem getElem?_maskLine (buf : Bytes) {i : Nat} (hi : i < buf.length) :
    (InLine buf i → (maskLine buf)[i]? = some 42) ∧
      (¬ InLine buf i → (maskLine buf)[i]? = buf[i]?) := by
  induction buf generalizing i with
  | nil => exact absurd hi (Nat.not_lt_zero i)
  | cons c buf ih =>
    unfold maskLine
    cases hc : isLineEnd c with
    | true =>
      rw [if_pos rfl]
      exact ⟨fun h => absurd h (not_inLine hc buf i), fun _ => rfl⟩
    | false =>
      rw [if_neg Bool.false_ne_true]
      cases i with
      | zero => exact ⟨fun _ => rfl, fun h => absurd (inLine_zero.mpr hc) h⟩
      | succ i =>
        rw [List.getElem?_cons_succ, List.getElem?_cons_succ, inLine_succ]
        obtain ⟨hin, hout⟩ := ih (Nat.lt_of_succ_lt_succ hi)
        exact ⟨fun h => hin h.2, fun h => hout (fun h' => h ⟨hc, h'⟩)⟩

theorem maskLine_congr {buf buf' : Bytes} (hlength : buf.length = buf'.length)
    (hin : ∀ i c', buf'[i]? = some c' → InLine buf i → isLineEnd c' = false)
    (hout : ∀ i, ¬ InLine buf i → buf[i]? = buf'[i]?) :
    maskLine buf = maskLine buf' ∧ buf.all (fun c => !isLineEnd c) = buf'.all (fun c => !isLineEnd c) := by
  induction buf generalizing buf' with
  | nil =>
    obtain rfl := List.length_eq_zero_iff.mp hlength.symm
    exact ⟨rfl, rfl⟩
  | cons c buf ih =>
    cases hc : isLineEnd c with
    | true =>
      have hsame : c :: buf = buf' := List.ext_getElem? (fun i => hout i (not_inLine hc buf i))
      rw [hsame]
      exact ⟨rfl, rfl⟩
    | false =>
      cases buf' with
      | nil => exact absurd hlength (Nat.succ_ne_zero _)
      | cons c' buf' =>
        have hc' : isLineEnd c' = false := hin 0 c' rfl (inLine_zero.mpr hc)
        obtain ⟨hmask, hall⟩ := ih (Nat.succ.inj hlength)
          (fun i d hd h => hin (i + 1) d hd (inLine_succ.mpr ⟨hc, h⟩))
          (fun i h => hout (i + 1) (fun h' => h (inLine_succ.mp h').2))
        unfold maskLine
        rw [hc, hc', hmask, List.all_cons, List.all_cons, hc, hc', hall]
        exact ⟨rfl, rfl⟩

theorem maskLine_append (buf rest : Bytes) :
    maskLine (buf ++ rest) =
      maskLine buf ++ if buf.all (fun c => !isLineEnd c) then maskLine rest else rest := by
  induction buf with
  | nil => rfl
  | cons c buf ih =>
    rw [List.cons_append, maskLine_cons, maskLine_cons]
    cases hc : isLineEnd c with
    | true =>
      rw [if_pos rfl, if_pos rfl, List.all_cons, hc]
      rfl
    | false =>
      rw [if_neg Bool.false_ne_true, if_neg Bool.false_ne_true, ih, List.all_cons, hc]
      rfl

/-! ## Runs -/

def afterEvents (handle : PwfiltHandle) (es : List IoEvent) : PwfiltHandle :=
  es.foldl (fun handle e => (iologPwfiltRun handle e.event e.buf).1) handle

def logEvent (handle : PwfiltHandle) (e : IoEvent) : Bytes :=
  (iologPwfiltRun handle e.event e.buf).2.getD e.buf

theorem logEvents_append (handle : PwfiltHandle) (es es' : List IoEvent) :
    logEvents handle (es ++ es') = logEvents handle es ++ logEvents (afterEvents handle es) es' := by
  induction es generalizing handle with
  | nil => rfl
  | cons e es ih =>
    show _ :: logEvents _ (es ++ es') = _ :: (logEvents _ es ++ logEvents _ es')
    rw [ih]
    rfl

theorem length_logEvents (handle : PwfiltHandle) (es : List IoEvent) :
    (logEvents handle es).length = es.length := by
  induction es generalizing handle with
  | nil => rfl
  | cons e es ih =>
    show (logEvents _ es).length + 1 = es.length + 1
    rw [ih]

theorem getElem?_logEvents (handle : PwfiltHandle) {es : List IoEvent} {k : Nat} {e : IoEvent}
    (h : es[k]? = some e) :
    (logEvents handle es)[k]? = some (logEvent (afterEvents handle (es.take k)) e) := by
  induction es generalizing handle k with
  | nil => exact absurd h (Option.some_ne_none e).symm
  | cons first es ih =>
    cases k with
    | zero =>
      obtain rfl := Option.some.inj h
      rfl
    | succ k => exact ih _ h

theorem filters_run (handle : PwfiltHandle) (event : IoEventType) (buf : Bytes) :
    (iologPwfiltRun handle event buf).1.filters = handle.filters := by
  unfold iologPwfiltRun
  split
  · rfl
  · split <;> rfl
  · rfl

theorem filters_afterEvents (handle : PwfiltHandle) (es : List IoEvent) :
    (afterEvents handle es).filters = handle.filters := by
  induction es generalizing handle with
  | nil => rfl
  | cons e es ih => exact (ih _).trans (filters_run handle e.event e.buf)

theorem isFiltered_run (handle : PwfiltHandle) (event : IoEventType) (buf : Bytes) :
    (iologPwfiltRun handle event buf).1.isFiltered =
      match event with
      | .ttyout => promptMatches handle.filters buf
      | .ttyin => handle.isFiltered && buf.all (fun c => !isLineEnd c)
      | _ => handle.isFiltered := by
  cases event with
  | ttyin =>
    unfold iologPwfiltRun
    dsimp only
    cases hf : handle.isFiltered with
    | false =>
      rw [if_neg Bool.false_ne_true, hf]
      rfl
    | true =>
      rw [if_pos rfl, Bool.true_and]
      dsimp only
      rw [Bool.eq_iff_iff, decide_eq_true_eq, List.findIdx_eq_length, List.all_eq_true]
      simp only [Bool.not_eq_true']
  | ttyout => rfl
  | stdin => rfl
  | stdout => rfl
  | stderr => rfl
  | winsize => rfl
  | ttyoutOld => rfl
  | suspend => rfl

theorem logEvent_ttyin (handle : PwfiltHandle) (buf : Bytes) :
    logEvent handle ⟨.ttyin, buf⟩ = if handle.isFiltered then maskLine buf else buf := by
  unfold logEvent iologPwfiltRun
  dsimp only
  cases hf : handle.isFiltered with
  | false => rfl
  | true =>
    rw [if_pos rfl, if_pos rfl, maskLine_eq]
    dsimp only
    by_cases hi : buf.findIdx isLineEnd = 0
    · rw [if_neg (not_not.mpr hi), hi]
      rfl
    · rw [if_pos hi]
      rfl

theorem logEvent_other (handle : PwfiltHandle) {e : IoEvent} (h : e.event ≠ .ttyin) :
    logEvent handle e = e.buf := by
  obtain ⟨event, buf⟩ := e
  cases event with
  | ttyin => exact absurd rfl h
  | ttyout => rfl
  | stdin => rfl
  | stdout => rfl
  | stderr => rfl
  | winsize => rfl
  | ttyoutOld => rfl
  | suspend => rfl

theorem isFiltered_iff (filters : List (Bytes → Bool)) (es : List IoEvent) (k : Nat)
    (hk : k ≤ es.length) :
    (afterEvents (iologPwfiltAlloc filters) (es.take k)).isFiltered = true ↔
      ∃ j prompt, j < k ∧ es[j]? = some ⟨.ttyout, prompt⟩ ∧ promptMatches filters prompt = true ∧
        ∀ l e, j < l → l < k → es[l]? = some e →
          e.event ≠ .ttyout ∧ (e.event = .ttyin → ∀ c ∈ e.buf, isLineEnd c = false) := by
  induction k with
  | zero =>
    constructor
    · exact fun h => absurd h Bool.false_ne_true
    · rintro ⟨j, prompt, hj, -⟩
      exact absurd hj (Nat.not_lt_zero j)
  | succ k ih =>
    have hlt : k < es.length := hk
    have hfilters := filters_afterEvents (iologPwfiltAlloc filters) (es.take k)
    have hlast : es[k]? = some es[k] := List.getElem?_eq_getElem hlt
    have htake : es.take (k + 1) = es.take k ++ [es[k]] := by
      rw [List.take_append_getElem]
    have hstep : (afterEvents (iologPwfiltAlloc filters) (es.take (k + 1))).isFiltered =
        match es[k].event with
        | .ttyout => promptMatches filters es[k].buf
        | .ttyin => (afterEvents (iologPwfiltAlloc filters) (es.take k)).isFiltered &&
            es[k].buf.all (fun c => !isLineEnd c)
        | _ => (afterEvents (iologPwfiltAlloc filters) (es.take k)).isFiltered := by
      rw [htake]
      unfold afterEvents
      rw [List.foldl_append]
      refine (isFiltered_run _ _ _).trans ?_
      change _ = filters at hfilters
      unfold afterEvents at hfilters
      rw [hfilters]
    rw [hstep]
    -- A prompt before the last event goes on if that event lets it.
    have hkeep (hnot : es[k].event ≠ .ttyout)
        (hline : es[k].event = .ttyin → ∀ c ∈ es[k].buf, isLineEnd c = false) :
        (afterEvents (iologPwfiltAlloc filters) (es.take k)).isFiltered = true ↔
        ∃ j prompt, j < k + 1 ∧ es[j]? = some ⟨.ttyout, prompt⟩ ∧
          promptMatches filters prompt = true ∧ ∀ l e, j < l → l < k + 1 → es[l]? = some e →
            e.event ≠ .ttyout ∧ (e.event = .ttyin → ∀ c ∈ e.buf, isLineEnd c = false) := by
      rw [ih (Nat.le_of_lt hlt)]
      constructor
      · rintro ⟨j, prompt, hj, hprompt, hmatch, hbetween⟩
        refine ⟨j, prompt, Nat.lt_succ_of_lt hj, hprompt, hmatch, fun l e hjl hl he => ?_⟩
        rcases Nat.lt_succ_iff_lt_or_eq.mp hl with hl | rfl
        · exact hbetween l e hjl hl he
        · rw [hlast] at he
          obtain rfl := Option.some.inj he
          exact ⟨hnot, hline⟩
      · rintro ⟨j, prompt, hj, hprompt, hmatch, hbetween⟩
        rcases Nat.lt_succ_iff_lt_or_eq.mp hj with hj | rfl
        · exact ⟨j, prompt, hj, hprompt, hmatch,
            fun l e hjl hl he => hbetween l e hjl (Nat.lt_succ_of_lt hl) he⟩
        · rw [hlast] at hprompt
          exact absurd (congrArg IoEvent.event (Option.some.inj hprompt)) hnot
    cases hevent : es[k].event with
    | ttyout =>
      dsimp only
      constructor
      · intro hmatch
        refine ⟨k, es[k].buf, Nat.lt_succ_self k, ?_, hmatch, fun l e hkl hl => by omega⟩
        rw [hlast, ← hevent]
      · rintro ⟨j, prompt, hj, hprompt, hmatch, hbetween⟩
        rcases Nat.lt_succ_iff_lt_or_eq.mp hj with hj | rfl
        · exact absurd hevent (hbetween k es[k] hj (Nat.lt_succ_self k) hlast).1
        · rw [hlast] at hprompt
          rw [Option.some.inj hprompt]
          exact hmatch
    | ttyin =>
      dsimp only
      have hnot : es[k].event ≠ .ttyout := by
        rw [hevent]
        exact IoEventType.noConfusion
      by_cases hline : ∀ c ∈ es[k].buf, isLineEnd c = false
      · have hall : es[k].buf.all (fun c => !isLineEnd c) = true := by
          rw [List.all_eq_true]
          exact fun c hc => by rw [hline c hc]; rfl
        rw [hall, Bool.and_true]
        exact hkeep hnot (fun _ => hline)
      · have hall : es[k].buf.all (fun c => !isLineEnd c) = false := by
          rw [Bool.eq_false_iff]
          intro hall
          refine hline (fun c hc => ?_)
          have hc' := List.all_eq_true.mp hall c hc
          rwa [Bool.not_eq_true'] at hc'
        rw [hall, Bool.and_false]
        constructor
        · exact fun h => absurd h Bool.false_ne_true
        · rintro ⟨j, prompt, hj, hprompt, -, hbetween⟩
          rcases Nat.lt_succ_iff_lt_or_eq.mp hj with hj | rfl
          · exact absurd ((hbetween k es[k] hj (Nat.lt_succ_self k) hlast).2 hevent) hline
          · rw [hlast] at hprompt
            exact absurd (congrArg IoEvent.event (Option.some.inj hprompt)) hnot
    | stdin | stdout | stderr | winsize | ttyoutOld | suspend =>
      have hnot : es[k].event ≠ .ttyout := by
        rw [hevent]
        exact IoEventType.noConfusion
      have hin : es[k].event ≠ .ttyin := by
        rw [hevent]
        exact IoEventType.noConfusion
      exact hkeep hnot (fun h => absurd h hin)

theorem hidden_iff (filters : List (Bytes → Bool)) {es : List IoEvent} {k : Nat} {typed : Bytes}
    (h : es[k]? = some ⟨.ttyin, typed⟩) (i : Nat) :
    Hidden filters es k i ↔
      (afterEvents (iologPwfiltAlloc filters) (es.take k)).isFiltered = true ∧ InLine typed i := by
  have hk : k ≤ es.length := Nat.le_of_lt (List.getElem?_eq_some_iff.mp h).1
  rw [isFiltered_iff filters es k hk]
  constructor
  · rintro ⟨j, prompt, hj, hprompt, hmatch, hbetween, typed', htyped, hline⟩
    rw [h] at htyped
    have hsame : typed = typed' := congrArg IoEvent.buf (Option.some.inj htyped)
    exact ⟨⟨j, prompt, hj, hprompt, hmatch, hbetween⟩, hsame ▸ hline⟩
  · rintro ⟨⟨j, prompt, hj, hprompt, hmatch, hbetween⟩, hline⟩
    exact ⟨j, prompt, hj, hprompt, hmatch, hbetween, typed, h, hline⟩

def LogsMasked (filters : List (Bytes → Bool)) (es : List IoEvent) (log : List Bytes) : Prop :=
  log.length = es.length ∧ ∀ k e out, es[k]? = some e → log[k]? = some out →
    out.length = e.buf.length ∧ ∀ i, i < e.buf.length →
      (Hidden filters es k i → out[i]? = some 42) ∧
        (¬ Hidden filters es k i → out[i]? = e.buf[i]?)

theorem logEvents_masked (filters : List (Bytes → Bool)) (es : List IoEvent) :
    LogsMasked filters es (logEvents (iologPwfiltAlloc filters) es) := by
  refine ⟨length_logEvents _ es, fun k e out he hout => ?_⟩
  rw [getElem?_logEvents _ he] at hout
  obtain rfl := Option.some.inj hout
  by_cases hevent : e.event = .ttyin
  · obtain ⟨event, typed⟩ := e
    obtain rfl : event = .ttyin := hevent
    rw [logEvent_ttyin]
    cases hf : (afterEvents (iologPwfiltAlloc filters) (es.take k)).isFiltered with
    | true =>
      rw [if_pos rfl]
      refine ⟨length_maskLine typed, fun i hi => ?_⟩
      rw [hidden_iff filters he i, hf]
      obtain ⟨hin, hout⟩ := getElem?_maskLine typed hi
      exact ⟨fun h => hin h.2, fun h => hout (fun h' => h ⟨rfl, h'⟩)⟩
    | false =>
      rw [if_neg Bool.false_ne_true]
      refine ⟨rfl, fun i _ => ?_⟩
      rw [hidden_iff filters he i, hf]
      exact ⟨fun h => absurd h.1 Bool.false_ne_true, fun _ => rfl⟩
  · rw [logEvent_other _ hevent]
    refine ⟨rfl, fun i _ => ⟨fun h => ?_, fun _ => rfl⟩⟩
    obtain ⟨_, _, _, _, _, _, typed, htyped, _⟩ := h
    rw [he] at htyped
    exact absurd (congrArg IoEvent.event (Option.some.inj htyped)) hevent

/-- Two runs with the same events but for hidden bytes, none of them the end of a line. -/
def DifferHidden (filters : List (Bytes → Bool)) (es es' : List IoEvent) : Prop :=
  es.length = es'.length ∧ ∀ k e e', es[k]? = some e → es'[k]? = some e' →
    e.event = e'.event ∧ e.buf.length = e'.buf.length ∧ ∀ i,
      (¬ Hidden filters es k i → e.buf[i]? = e'.buf[i]?) ∧
        ∀ c', e'.buf[i]? = some c' → Hidden filters es k i → isLineEnd c' = false

theorem logEvent_congr (filters : List (Bytes → Bool)) {es es' : List IoEvent}
    (h : DifferHidden filters es es') {k : Nat} {e e' : IoEvent} (he : es[k]? = some e)
    (he' : es'[k]? = some e') {handle : PwfiltHandle}
    (hhandle : handle = afterEvents (iologPwfiltAlloc filters) (es.take k)) :
    logEvent handle e = logEvent handle e' ∧
      (iologPwfiltRun handle e.event e.buf).1 = (iologPwfiltRun handle e'.event e'.buf).1 := by
  obtain ⟨hevent, hlength, hbytes⟩ := h.2 k e e' he he'
  obtain ⟨event, buf⟩ := e
  obtain ⟨event', buf'⟩ := e'
  obtain rfl : event = event' := hevent
  -- Only what is typed while the filter is on can differ.
  have hsame (hnone : ∀ i, ¬ Hidden filters es k i) : buf = buf' :=
    List.ext_getElem? (fun i => (hbytes i).1 (hnone i))
  by_cases hin : event = .ttyin
  · subst hin
    cases hf : handle.isFiltered with
    | false =>
      have hnone (i : Nat) : ¬ Hidden filters es k i := by
        rw [hidden_iff filters he i, ← hhandle, hf]
        exact fun h => Bool.false_ne_true h.1
      rw [hsame hnone]
      exact ⟨rfl, rfl⟩
    | true =>
      have hhidden (i : Nat) : Hidden filters es k i ↔ InLine buf i := by
        rw [hidden_iff filters he i, ← hhandle, hf]
        exact ⟨fun h => h.2, fun h => ⟨rfl, h⟩⟩
      obtain ⟨hmask, hall⟩ := maskLine_congr hlength
        (fun i c' hc' hline => (hbytes i).2 c' hc' ((hhidden i).mpr hline))
        (fun i hline => (hbytes i).1 (fun hh => hline ((hhidden i).mp hh)))
      constructor
      · rw [logEvent_ttyin, logEvent_ttyin, hf, if_pos rfl, if_pos rfl, hmask]
      · have hfiltered := isFiltered_run handle .ttyin buf
        have hfiltered' := isFiltered_run handle .ttyin buf'
        dsimp only at hfiltered hfiltered'
        rw [hall, ← hfiltered'] at hfiltered
        have hfilters := (filters_run handle .ttyin buf).trans (filters_run handle .ttyin buf').symm
        exact PwfiltHandle.ext hfilters hfiltered
  · have hnone (i : Nat) : ¬ Hidden filters es k i := by
      rintro ⟨_, _, _, _, _, _, typed, htyped, _⟩
      rw [he] at htyped
      exact hin (congrArg IoEvent.event (Option.some.inj htyped))
    rw [hsame hnone]
    exact ⟨rfl, rfl⟩

theorem logEvents_congr (filters : List (Bytes → Bool)) {es es' : List IoEvent}
    (h : DifferHidden filters es es') :
    logEvents (iologPwfiltAlloc filters) es = logEvents (iologPwfiltAlloc filters) es' := by
  have hafter (k : Nat) : afterEvents (iologPwfiltAlloc filters) (es.take k) =
      afterEvents (iologPwfiltAlloc filters) (es'.take k) := by
    induction k with
    | zero => rfl
    | succ k ih =>
      by_cases hk : k < es.length
      · have hk' : k < es'.length := h.1 ▸ hk
        have he : es[k]? = some es[k] := List.getElem?_eq_getElem hk
        have he' : es'[k]? = some es'[k] := List.getElem?_eq_getElem hk'
        have hstep := (logEvent_congr filters h he he' rfl).2
        rw [← List.take_append_getElem hk, ← List.take_append_getElem hk']
        unfold afterEvents at ih hstep ⊢
        rw [List.foldl_append, List.foldl_append, ← ih]
        exact hstep
      · have hk' : ¬ k < es'.length := h.1 ▸ hk
        rw [List.take_of_length_le (by omega), List.take_of_length_le (by omega)] at ih
        rw [List.take_of_length_le (by omega), List.take_of_length_le (by omega), ih]
  refine List.ext_getElem? (fun k => ?_)
  cases he : es[k]? with
  | none =>
    have hk : es.length ≤ k := List.getElem?_eq_none_iff.mp he
    rw [List.getElem?_eq_none (by rw [length_logEvents]; exact hk),
      List.getElem?_eq_none (by rw [length_logEvents, ← h.1]; exact hk)]
  | some e =>
    have hk : k < es'.length := h.1 ▸ (List.getElem?_eq_some_iff.mp he).1
    have he' : es'[k]? = some es'[k] := List.getElem?_eq_getElem hk
    rw [getElem?_logEvents _ he, getElem?_logEvents _ he', ← hafter k,
      (logEvent_congr filters h he he' rfl).1]

theorem logEvents_chunks (handle : PwfiltHandle) (chunks : List Bytes) :
    (logEvents handle (chunks.map (IoEvent.mk .ttyin))).flatten =
        logEvent handle ⟨.ttyin, chunks.flatten⟩ ∧
      afterEvents handle (chunks.map (IoEvent.mk .ttyin)) =
        (iologPwfiltRun handle .ttyin chunks.flatten).1 := by
  induction chunks generalizing handle with
  | nil =>
    constructor
    · rw [logEvent_ttyin]
      cases handle.isFiltered <;> rfl
    · refine (PwfiltHandle.ext (filters_run handle .ttyin []) ?_).symm
      rw [isFiltered_run]
      exact Bool.and_true _
  | cons chunk chunks ih =>
    obtain ⟨hlog, hafter⟩ := ih (iologPwfiltRun handle .ttyin chunk).1
    have hfiltered := isFiltered_run handle .ttyin chunk
    dsimp only at hfiltered
    constructor
    · show logEvent handle ⟨.ttyin, chunk⟩ ++ (logEvents _ (chunks.map (IoEvent.mk .ttyin))).flatten = _
      rw [hlog, logEvent_ttyin, logEvent_ttyin, logEvent_ttyin, hfiltered, List.flatten_cons,
        maskLine_append]
      cases handle.isFiltered <;> rfl
    · show afterEvents (iologPwfiltRun handle .ttyin chunk).1 (chunks.map (IoEvent.mk .ttyin)) = _
      rw [hafter]
      refine PwfiltHandle.ext ?_ ?_
      · rw [filters_run, filters_run, filters_run]
      · rw [isFiltered_run, isFiltered_run]
        dsimp only
        rw [isFiltered_run]
        dsimp only
        rw [List.flatten_cons, List.all_append, Bool.and_assoc]

/-- The filter hides what is typed behind a prompt and nothing else, what is hidden does not show,
and the parts in which it comes make no difference. -/
theorem iologPwfiltRun_complete (filters : List (Bytes → Bool)) :
    (∀ es, LogsMasked filters es (logEvents (iologPwfiltAlloc filters) es)) ∧
      (∀ es es', DifferHidden filters es es' →
        logEvents (iologPwfiltAlloc filters) es = logEvents (iologPwfiltAlloc filters) es') ∧
      ∀ (es : List IoEvent) (chunks : List Bytes) (es' : List IoEvent), ∃ before parts after,
        logEvents (iologPwfiltAlloc filters)
            (es ++ chunks.map (IoEvent.mk .ttyin) ++ es') = before ++ parts ++ after ∧
          logEvents (iologPwfiltAlloc filters)
            (es ++ [⟨.ttyin, chunks.flatten⟩] ++ es') = before ++ [parts.flatten] ++ after ∧
          before.length = es.length ∧ parts.length = chunks.length := by
  refine ⟨logEvents_masked filters, fun es es' => logEvents_congr filters, fun es chunks es' => ?_⟩
  obtain ⟨hlog, hafter⟩ := logEvents_chunks (afterEvents (iologPwfiltAlloc filters) es) chunks
  refine ⟨logEvents (iologPwfiltAlloc filters) es,
    logEvents (afterEvents (iologPwfiltAlloc filters) es) (chunks.map (IoEvent.mk .ttyin)),
    logEvents (afterEvents (iologPwfiltAlloc filters) (es ++ chunks.map (IoEvent.mk .ttyin))) es',
    ?_, ?_, length_logEvents _ es, ?_⟩
  · rw [logEvents_append, logEvents_append]
  · rw [logEvents_append, logEvents_append, hlog]
    unfold afterEvents at hafter ⊢
    rw [List.foldl_append, List.foldl_append, hafter]
    rfl
  · rw [length_logEvents, List.length_map]

end NextBSD.Iolog
