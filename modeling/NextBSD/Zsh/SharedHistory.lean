import NextBSD.Zsh.HistorySave

/-!
# Sessions that share a history file

Any number of sessions run at once.  A session reads the file when it starts, and each `hend` holds
the lock of the file, so that what it reads, adds and writes is one step.
-/

namespace NextBSD.Zsh.History

variable {σ : Type}

structure World (σ : Type) where
  file : HistFile
  sessions : σ → Option Session

inductive Action (σ : Type) where
  | start (sid : σ) (tim : Int)
  | hend (sid : σ) (c : Completion)

def initialLog (σ : Type) (entries : List (HistText × Int)) : List (Logged σ) :=
  entries.map fun e => { sid := none, nam := e.1, stim := e.2 }

def World.initial (σ : Type) (entries : List (HistText × Int)) (mtime : Int) : World σ where
  file := { bytes := fileOf (initialLog σ entries), mtime := mtime }
  sessions := fun _ => none

section

variable [DecidableEq σ]

/-- A session that runs does not start again, and one that does not run completes nothing. -/
def World.step (ftell : Nat → Nat → Nat) (w : World σ) : Action σ → World σ
  | .start sid tim =>
    match w.sessions sid with
    | some _ => w
    | none =>
      { w with sessions :=
          Function.update w.sessions sid (some (readhistfile false tim Session.empty w.file)) }
  | .hend sid c =>
    match w.sessions sid with
    | some s =>
      let (s, file) := hend ftell c s w.file
      { file := file, sessions := Function.update w.sessions sid (some s) }
    | none => w

def World.run (ftell : Nat → Nat → Nat) (w : World σ) (actions : List (Action σ)) : World σ :=
  actions.foldl (World.step ftell) w

def savedNow (w : World σ) : Action σ → List (Logged σ)
  | .start _ _ => []
  | .hend sid c => if (w.sessions sid).isSome then savedLine sid c else []

def savedBy (ftell : Nat → Nat → Nat) (w : World σ) : List (Action σ) → List (Logged σ)
  | [] => []
  | a :: actions => savedNow w a ++ savedBy ftell (w.step ftell a) actions

/-- The file is what was saved, and every session has seen a first part of it. -/
structure Shared (w : World σ) (log : List (Logged σ)) : Prop where
  file : w.file.bytes = fileOf log
  follows : ∀ sid s, w.sessions sid = some s → Follows sid log s

theorem Shared.initial (entries : List (HistText × Int)) (mtime : Int) :
    Shared (World.initial σ entries mtime) (initialLog σ entries) where
  file := rfl
  follows := fun _ s h => absurd h (Option.some_ne_none s).symm

theorem follows_update {sessions : σ → Option Session} {log more : List (Logged σ)} {sid : σ}
    {s' : Session} (h : ∀ sid s, sessions sid = some s → Follows sid log s)
    (hmore : ∀ l ∈ more, l.sid = some sid) (hs' : Follows sid (log ++ more) s') (sid' : σ)
    (t : Session) (ht : Function.update sessions sid (some s') sid' = some t) :
    Follows sid' (log ++ more) t := by
  by_cases hsid : sid' = sid
  · subst hsid
    rw [Function.update_self] at ht
    rw [← Option.some.inj ht]
    exact hs'
  · rw [Function.update_of_ne hsid] at ht
    refine (h sid' t ht).append fun l hl hown => ?_
    exact hsid (Option.some.inj (hown.symm.trans (hmore l hl)))

theorem savedNow_hend {w : World σ} {sid : σ} {s : Session} (hs : w.sessions sid = some s)
    (c : Completion) : savedNow w (.hend sid c) = savedLine sid c := by
  unfold savedNow
  dsimp only
  rw [hs]
  rfl

theorem Shared.hend {w : World σ} {log : List (Logged σ)} {ftell : Nat → Nat → Nat}
    (hftell : AppendsAtEnd ftell) (h : Shared w log) {sid : σ} {s : Session}
    (hs : w.sessions sid = some s) (c : Completion) :
    Shared (w.step ftell (.hend sid c)) (log ++ savedNow w (.hend sid c)) ∧
      ∃ s', (w.step ftell (.hend sid c)).sessions sid = some s' ∧
        ∃ base tmps last, Current sid s' base tmps last (log ++ savedNow w (.hend sid c)) := by
  obtain ⟨s', file', base, tmps, last, heq, hcurrent, hfile⟩ :=
    hend_spec hftell (h.follows sid s hs) c w.file h.file
  have hstep : w.step ftell (.hend sid c) =
      { file := file', sessions := Function.update w.sessions sid (some s') } := by
    unfold World.step
    dsimp only
    rw [hs]
    dsimp only
    rw [heq]
  rw [savedNow_hend hs, hstep]
  exact ⟨⟨hfile, follows_update h.follows (fun l => savedLine_own) hcurrent.follows⟩, s',
    Function.update_self _ _ _, base, tmps, last, hcurrent⟩

theorem Shared.step {w : World σ} {log : List (Logged σ)} {ftell : Nat → Nat → Nat}
    (hftell : AppendsAtEnd ftell) (h : Shared w log) (a : Action σ) :
    Shared (w.step ftell a) (log ++ savedNow w a) := by
  cases a with
  | start sid tim =>
    unfold World.step
    dsimp only
    cases hs : w.sessions sid with
    | some s =>
      show Shared w (log ++ [])
      rw [List.append_nil]
      exact h
    | none =>
      obtain ⟨base, tmps, last, hcurrent⟩ := readhistfile_start sid log tim w.file h.file
      refine ⟨h.file.trans (congrArg fileOf (List.append_nil log).symm), ?_⟩
      refine follows_update h.follows (fun l hl => absurd hl List.not_mem_nil) ?_
      show Follows sid (log ++ []) _
      rw [List.append_nil]
      exact hcurrent.follows
  | hend sid c =>
    cases hs : w.sessions sid with
    | some s => exact (h.hend hftell hs c).1
    | none =>
      unfold World.step savedNow
      dsimp only
      rw [hs]
      show Shared w (log ++ [])
      rw [List.append_nil]
      exact h

theorem Shared.run {ftell : Nat → Nat → Nat} (hftell : AppendsAtEnd ftell)
    (actions : List (Action σ)) {w : World σ} {log : List (Logged σ)} (h : Shared w log) :
    Shared (w.run ftell actions) (log ++ savedBy ftell w actions) := by
  induction actions generalizing w log with
  | nil =>
    show Shared w (log ++ [])
    rw [List.append_nil]
    exact h
  | cons a actions ih =>
    have hrun := ih (h.step hftell a)
    rw [List.append_assoc] at hrun
    exact hrun

/-- Nothing is lost and nothing is repeated.  Whatever the sessions do in whatever order, the file
holds what it had and the commands that were saved normally, each once; and a session that has
completed a command lists all of that in its ring. -/
theorem sharedHistory_complete {ftell : Nat → Nat → Nat} (hftell : AppendsAtEnd ftell)
    (entries : List (HistText × Int)) (mtime : Int) (actions : List (Action σ)) (sid : σ)
    (c : Completion) :
    let w := (World.initial σ entries mtime).run ftell actions
    let log := initialLog σ entries ++ savedBy ftell (World.initial σ entries mtime) actions
    let w' := w.step ftell (.hend sid c)
    let log' := log ++ savedNow w (.hend sid c)
    w.file.bytes = fileOf log ∧
      (readhistlines [] 0 (fileLines w.file.bytes)).map (fun line => readEntry line.1) =
        log.map (fun l => (l.stim, 0, l.nam.bytes)) ∧
      w'.file.bytes = fileOf log' ∧
      ((w.sessions sid).isSome →
        ∃ s, w'.sessions sid = some s ∧ Lists sid (s.ring.map (·.shown)) log') := by
  have hshared := (Shared.initial (σ := σ) entries mtime).run hftell actions
  refine ⟨hshared.file, ?_, (hshared.step hftell (.hend sid c)).file, fun hsome => ?_⟩
  · rw [hshared.file]
    exact readEntry_fileOf _
  · obtain ⟨s, hs⟩ := Option.isSome_iff_exists.mp hsome
    obtain ⟨-, s', hs', base, tmps, last, hcurrent⟩ := hshared.hend hftell hs c
    exact ⟨s', hs', hcurrent.lists_ring⟩

/-- Two sessions that save `ls`, one after the other. -/
theorem sharedHistory_complete_two :
    let c : Completion :=
      { chline := ⟨[108, 115, 10], [108, 115, 10], rfl⟩
        noWords := false, ignored := false, hookret := 0, recalled := false
        tim := 7, stim := 7, mtime := 7 }
    let actions : List (Action Bool) := [.start true 5, .start false 6, .hend true c]
    let w := (World.initial Bool [] 0).run (· + ·) actions
    ∃ s, (w.step (· + ·) (.hend false c)).sessions false = some s ∧
      Lists false (s.ring.map (·.shown))
        [⟨some true, c.chline.dropNewline, 7⟩, ⟨some false, c.chline.dropNewline, 7⟩] :=
  (sharedHistory_complete (fun _ _ => rfl) [] 0 _ false _).2.2.2 rfl

end

end NextBSD.Zsh.History
