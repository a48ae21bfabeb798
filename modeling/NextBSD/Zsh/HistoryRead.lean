import NextBSD.Zsh.HistoryRing

/-!
# What a session has seen of a file

The file is the lines of a list of saved commands.  A session has seen a first part of it, and
remembers where the last entry of that part begins.
-/

namespace NextBSD.Zsh.History

/-- A command that has been saved, with the session that saved it; no session for an entry that the
file had from the start. -/
structure Logged (σ : Type) where
  sid : Option σ
  nam : HistText
  stim : Int

variable {σ : Type}

def Logged.line (l : Logged σ) : Bytes := histLine l.stim 0 l.nam.bytes

def fileOf (log : List (Logged σ)) : Bytes := log.flatMap Logged.line

/-- The ring lists the entries of a file in their order.  An entry of another session may be left
out when it is, up to blanks, the command of the entry before it in the ring. -/
inductive Lists (own : σ) : List Shown → List (Logged σ) → Prop
  | nil : Lists own [] []
  | listed {shown log} (e : Shown) (l : Logged σ) : Lists own shown log → e.kept = false →
      e.nam = l.nam.bytes → (l.stim ≠ 0 → e.stim = l.stim) → Lists own (shown ++ [e]) (log ++ [l])
  | kept {shown log} (e : Shown) : Lists own shown log → e.kept = true →
      Lists own (shown ++ [e]) log
  | omitted {shown log} (u : Shown) (l : Logged σ) : Lists own shown log →
      shown.getLast? = some u → l.sid ≠ some own →
      collapse true u.nam = collapse true l.nam.bytes → Lists own shown (log ++ [l])

def Remembers (seen : List (Logged σ)) (text : Option Bytes) (fpos : Nat) (stim : Int) : Prop :=
  ∃ before l, seen = before ++ [l] ∧ text = some l.nam.bytes ∧ fpos = (fileOf before).length ∧
    stim = l.stim

theorem fileOf_append (log more : List (Logged σ)) :
    fileOf (log ++ more) = fileOf log ++ fileOf more := List.flatMap_append

theorem fileOf_singleton (l : Logged σ) : fileOf [l] = l.line := List.flatMap_singleton _ _

theorem line_length_pos (l : Logged σ) : 0 < l.line.length := by
  show 0 < (histHeader l.stim 0 ++ _).length
  rw [List.length_append]
  exact Nat.lt_of_lt_of_le (Nat.succ_pos _) (Nat.le_add_right _ _)

theorem fileOf_eq_nil {log : List (Logged σ)} (h : (fileOf log).length = 0) : log = [] := by
  cases log with
  | nil => rfl
  | cons l log =>
    have hpos := line_length_pos l
    have hcons : fileOf (l :: log) = l.line ++ fileOf log := rfl
    rw [hcons, List.length_append] at h
    omega

theorem readhistlines_fileOf (l : Logged σ) (log : List (Logged σ)) :
    readhistlines [] 0 (fileLines (fileOf (l :: log))) =
      (histHeader l.stim 0 ++ l.nam.bytes, l.line.length) ::
        readhistlines [] 0 (fileLines (fileOf log)) :=
  readhistlines_histLine l.stim l.nam.bytes (fileOf log)

theorem readEntry_fileOf (log : List (Logged σ)) :
    (readhistlines [] 0 (fileLines (fileOf log))).map (fun line => readEntry line.1) =
      log.map fun l => (l.stim, 0, l.nam.bytes) := by
  induction log with
  | nil => rfl
  | cons l log ih =>
    rw [readhistlines_fileOf, List.map_cons, List.map_cons, ih]
    exact congrArg (· :: _) (readEntry_histHeader l.stim l.nam)

section

variable {s : Session} {base tmps : List Histent} {last : Nat} {own : σ} {fast : Bool}

theorem lists_of_shows {shown shown' : List Shown} {seen : List (Logged σ)} {l : Logged σ}
    {tim : Int} (hlists : Lists own shown seen) (hown : fast = true → l.sid ≠ some own)
    (h : Shows fast shown shown'
      { nam := l.nam.bytes, stim := if l.stim = 0 then tim else l.stim, kept := false }) :
    Lists own shown' (seen ++ [l]) := by
  rcases h with rfl | ⟨hfast, rfl, u, hu, hcmp⟩
  · exact Lists.listed _ l hlists rfl rfl fun hstim => if_neg hstim
  · exact Lists.omitted u l hlists hu (hown hfast) ((histstrcmp_iff _ _).mp hcmp)

structure Sees (own : σ) (s : Session) (base tmps : List Histent) (last : Nat)
    (seen : List (Logged σ)) : Prop where
  ring : Ring s base tmps last
  saved : Saved base
  lists : Lists own (base.map (·.shown)) seen

/-- The loop of `readhistfile` takes every entry.  The induction is on the entries that are left;
what was remembered before is replaced by the last one of them. -/
theorem readLoop_spec (more seen : List (Logged σ)) (tim : Int) (start : Option Bytes)
    (hsees : Sees own s base tmps last seen)
    (hown : fast = true → ∀ l ∈ more, l.sid ≠ some own) :
    ∃ s' start', readLoop fast tim s false (fileOf seen).length start
        (readhistlines [] 0 (fileLines (fileOf more))) = (s', start') ∧
      (∃ base' tmps' last', Sees own s' base' tmps' last' (seen ++ more)) ∧
      s'.lasthist =
        { s.lasthist with fpos := s'.lasthist.fpos, stim := s'.lasthist.stim } ∧
      (more = [] ∧ start' = start ∧ s' = s ∨
        Remembers (seen ++ more) start' s'.lasthist.fpos s'.lasthist.stim) := by
  induction more generalizing s base tmps last seen start with
  | nil =>
    rw [List.append_nil]
    exact ⟨s, start, rfl, ⟨base, tmps, last, hsees⟩, rfl, Or.inl ⟨rfl, rfl, rfl⟩⟩
  | cons l more ih =>
    obtain ⟨hlasthist, base', last', hring, hsaved, hshows⟩ :=
      readAdd_spec hsees.ring hsees.saved fast tim (fileOf seen).length l.stim 0 l.nam.bytes
    have hlists := lists_of_shows hsees.lists
      (fun hfast => hown hfast l List.mem_cons_self) hshows
    obtain ⟨s', start', hloop, hsees', hrest, hlast⟩ :=
      ih (seen ++ [l]) (some l.nam.bytes) ⟨hring, hsaved, hlists⟩
        fun hfast d hd => hown hfast d (List.mem_cons_of_mem l hd)
    have happ : seen ++ [l] ++ more = seen ++ l :: more := (List.append_cons seen l more).symm
    rw [happ] at hsees' hlast
    rw [hlasthist] at hrest
    refine ⟨s', start', ?_, hsees', hrest, Or.inr ?_⟩
    · rw [readhistlines_fileOf, readLoop, readEntry_histHeader]
      dsimp only
      rw [if_neg (fun h => Bool.false_ne_true h.1), ← hloop, fileOf_append, fileOf_singleton,
        List.length_append]
    · rcases hlast with ⟨rfl, rfl, rfl⟩ | hlast
      · exact ⟨seen, l, rfl, rfl, by rw [hlasthist], by rw [hlasthist]⟩
      · exact hlast

/-- What `lasthist` says about the part of the file that was seen. -/
structure Knows (lasthist : Lasthist) (seen : List (Logged σ)) : Prop where
  last : lasthist.text = none ∧ seen = [] ∨
    Remembers seen lasthist.text lasthist.fpos lasthist.stim
  fsiz : lasthist.fsiz = 0 ∨ lasthist.fsiz = (fileOf seen).length

structure Current (own : σ) (s : Session) (base tmps : List Histent) (last : Nat)
    (log : List (Logged σ)) : Prop extends Sees own s base tmps last log where
  knows : Knows s.lasthist log

def Follows (own : σ) (log : List (Logged σ)) (s : Session) : Prop :=
  ∃ base tmps last seen rest, log = seen ++ rest ∧ (∀ l ∈ rest, l.sid ≠ some own) ∧
    Current own s base tmps last seen

theorem Current.follows {log : List (Logged σ)} (h : Current own s base tmps last log) :
    Follows own log s :=
  ⟨base, tmps, last, log, [], (List.append_nil log).symm, fun _ hl => absurd hl List.not_mem_nil, h⟩

theorem Current.lists_ring {log : List (Logged σ)} (h : Current own s base tmps last log) :
    Lists own (s.ring.map (·.shown)) log := by
  rw [h.ring.ring_eq, List.map_append]
  cases htmps : tmps with
  | nil =>
    rw [List.map_nil, List.append_nil]
    exact h.lists
  | cons t rest =>
    have ht : t ∈ tmps := htmps ▸ List.mem_cons_self
    rw [← htmps, h.ring.tmps_eq ht]
    refine Lists.kept _ h.lists ?_
    show (t.tmpstore || t.nowrite) = true
    rw [(h.ring.temporary t ht).1, Bool.true_or]

theorem Follows.append {log : List (Logged σ)} (h : Follows own log s) {more : List (Logged σ)}
    (hmore : ∀ l ∈ more, l.sid ≠ some own) : Follows own (log ++ more) s := by
  obtain ⟨base, tmps, last, seen, rest, rfl, hrest, hcurrent⟩ := h
  refine ⟨base, tmps, last, seen, rest ++ more, List.append_assoc seen rest more,
    fun l hl => ?_, hcurrent⟩
  rcases List.mem_append.mp hl with hl | hl
  · exact hrest l hl
  · exact hmore l hl

theorem setText_spec {seen : List (Logged σ)} {start : Option Bytes}
    (hsees : Sees own s base tmps last seen)
    (hlast : Remembers seen start s.lasthist.fpos s.lasthist.stim)
    (hfsiz : s.lasthist.fsiz = 0 ∨ s.lasthist.fsiz = (fileOf seen).length) :
    Current own (setText s start) base tmps last seen := by
  obtain ⟨before, l, hseen, rfl, hpos⟩ := hlast
  exact {
    ring := hsees.ring.remember { s.lasthist with text := some l.nam.bytes } hsees.ring.next_le
    saved := hsees.saved
    lists := hsees.lists
    knows := ⟨Or.inr ⟨before, l, hseen, rfl, hpos⟩, hfsiz⟩ }

theorem readLoop_current (fast : Bool) (seen rest : List (Logged σ)) (tim : Int)
    (hsees : Sees own s base tmps last seen)
    (hown : fast = true → ∀ l ∈ rest, l.sid ≠ some own)
    (hlast : rest = [] → Knows s.lasthist seen)
    (hfsiz : s.lasthist.fsiz = 0 ∨ s.lasthist.fsiz = (fileOf (seen ++ rest)).length) :
    ∃ s' start', readLoop fast tim s false (fileOf seen).length none
        (readhistlines [] 0 (fileLines (fileOf rest))) = (s', start') ∧
      ∃ base' tmps' last', Current own (setText s' start') base' tmps' last' (seen ++ rest) := by
  obtain ⟨s', start', hloop, ⟨base', tmps', last', hsees'⟩, hrest, hend⟩ :=
    readLoop_spec rest seen tim none hsees hown
  refine ⟨s', start', hloop, ?_⟩
  rcases hend with ⟨rfl, rfl, rfl⟩ | hend
  · rw [List.append_nil] at *
    exact ⟨base, tmps, last, { hsees with knows := hlast rfl }⟩
  · have hfsiz' : s'.lasthist.fsiz = s.lasthist.fsiz := by rw [hrest]
    rw [← hfsiz'] at hfsiz
    exact ⟨base', tmps', last', setText_spec hsees' hend hfsiz⟩

theorem drop_fileOf (before rest : List (Logged σ)) :
    (fileOf (before ++ rest)).drop (fileOf before).length = fileOf rest := by
  rw [fileOf_append, List.drop_left]

theorem readFrom_spec {seen rest : List (Logged σ)} {text : Bytes} (tim : Int)
    (htext : s.lasthist.text = some text) (hsees : Sees own s base tmps last seen)
    (hknows : Remembers seen s.lasthist.text s.lasthist.fpos s.lasthist.stim)
    (hrest : ∀ l ∈ rest, l.sid ≠ some own)
    (hfsiz : s.lasthist.fsiz = (fileOf (seen ++ rest)).length) :
    ∃ s' start', readFrom tim s (fileOf (seen ++ rest)) text = (s', start') ∧
      ∃ base' tmps' last', Current own (setText s' start') base' tmps' last' (seen ++ rest) := by
  obtain ⟨s', start', hloop, hcurrent⟩ := readLoop_current true seen rest tim hsees
    (fun _ => hrest) (fun hnil => ⟨Or.inr hknows, Or.inr (by rw [hfsiz, hnil, List.append_nil])⟩)
    (Or.inr hfsiz)
  refine ⟨s', start', ?_, hcurrent⟩
  obtain ⟨before, l, rfl, hnam, hfpos, hstim⟩ := hknows
  have hdrop : (fileOf (before ++ [l] ++ rest)).drop s.lasthist.fpos = fileOf (l :: rest) := by
    rw [hfpos, List.append_assoc, drop_fileOf]
    rfl
  have hnam : text = l.nam.bytes := Option.some.inj (htext.symm.trans hnam)
  unfold readFrom
  dsimp only
  rw [hdrop, readhistlines_fileOf]
  dsimp only
  rw [readEntry_histHeader]
  dsimp only
  rw [if_pos ⟨hstim.symm, by rw [hnam]; exact histstrcmp_self _⟩, ← hloop, fileOf_append,
    fileOf_singleton, List.length_append, hfpos]

theorem readEntries_spec {seen rest : List (Logged σ)} (tim : Int)
    (hsees : Sees own s base tmps last seen)
    (hlast : s.lasthist.text = none ∧ seen = [] ∨
      Remembers seen s.lasthist.text s.lasthist.fpos s.lasthist.stim)
    (hrest : ∀ l ∈ rest, l.sid ≠ some own)
    (hfsiz : s.lasthist.fsiz = (fileOf (seen ++ rest)).length) :
    ∃ s' start', readEntries true tim s (fileOf (seen ++ rest)) = (s', start') ∧
      ∃ base' tmps' last', Current own (setText s' start') base' tmps' last' (seen ++ rest) := by
  cases htext : s.lasthist.text with
  | none =>
    rcases hlast with ⟨-, rfl⟩ | ⟨before, l, -, hsome, -⟩
    · unfold readEntries
      rw [htext]
      exact readLoop_current true [] rest tim hsees (fun _ => hrest)
        (fun hnil => ⟨Or.inl ⟨htext, rfl⟩, Or.inr (by rw [hfsiz, hnil]; rfl)⟩) (Or.inr hfsiz)
    · exact absurd (htext.symm.trans hsome) (Option.some_ne_none _).symm
  | some text =>
    rcases hlast with ⟨hnone, -⟩ | hremembers
    · exact absurd (htext.symm.trans hnone) (Option.some_ne_none _)
    · obtain ⟨before, l, hseen, -, hfpos, -⟩ := id hremembers
      have hlt : s.lasthist.fpos < s.lasthist.fsiz := by
        have hpos := line_length_pos l
        rw [hfsiz, hfpos, hseen, fileOf_append, fileOf_append, List.length_append,
          List.length_append, fileOf_singleton]
        omega
      unfold readEntries
      rw [htext]
      dsimp only
      rw [if_pos hlt]
      exact readFrom_spec tim htext hsees hremembers hrest hfsiz

theorem readhistfile_eq (tim : Int) (s : Session) (file : HistFile) (hsize : file.bytes.length ≠ 0)
    (hnew : ¬(fast = true ∧ s.lasthist.fsiz = file.bytes.length ∧ s.lasthist.mtim = file.mtime))
    {s' : Session} {start : Option Bytes}
    (h : readEntries fast tim
      (if fast then
        { s with lasthist := { s.lasthist with fsiz := file.bytes.length, mtim := file.mtime } }
      else s) file.bytes = (s', start)) :
    readhistfile fast tim s file = setText s' start := by
  unfold readhistfile
  rw [if_neg hsize, if_neg hnew]
  dsimp only
  rw [h]

theorem readhistfile_fast {log : List (Logged σ)} (h : Follows own log s) (tim : Int)
    (file : HistFile) (hfile : file.bytes = fileOf log) :
    ∃ base tmps last, Current own (readhistfile true tim s file) base tmps last log := by
  obtain ⟨base, tmps, last, seen, rest, rfl, hrest, hcurrent⟩ := h
  by_cases hsize : file.bytes.length = 0
  · have hnil := fileOf_eq_nil (hfile ▸ hsize)
    have hrest : rest = [] := (List.append_eq_nil_iff.mp hnil).2
    unfold readhistfile
    rw [if_pos hsize, hrest, List.append_nil]
    exact ⟨base, tmps, last, hcurrent⟩
  · by_cases hold : true = true ∧ s.lasthist.fsiz = file.bytes.length ∧
        s.lasthist.mtim = file.mtime
    · have hlength : (fileOf seen).length = (fileOf (seen ++ rest)).length := by
        rcases hcurrent.knows.fsiz with hfsiz | hfsiz
        · exact absurd (hold.2.1.symm.trans hfsiz) hsize
        · rw [← hfsiz, hold.2.1, hfile]
      rw [fileOf_append, List.length_append] at hlength
      have hrest : rest = [] := fileOf_eq_nil (by omega)
      unfold readhistfile
      rw [if_neg hsize, if_pos hold, hrest, List.append_nil]
      exact ⟨base, tmps, last, hcurrent⟩
    · have hsees : Sees own { s with lasthist :=
          { s.lasthist with fsiz := file.bytes.length, mtim := file.mtime } } base tmps last seen :=
        ⟨hcurrent.ring.remember _ hcurrent.ring.next_le, hcurrent.saved, hcurrent.lists⟩
      obtain ⟨s', start', heq, hfinal⟩ := readEntries_spec tim hsees hcurrent.knows.last hrest
        (congrArg List.length hfile)
      rw [readhistfile_eq tim s file hsize hold (by rw [if_pos rfl, ← heq, hfile])]
      exact hfinal

theorem readhistfile_start (own : σ) (log : List (Logged σ)) (tim : Int) (file : HistFile)
    (hfile : file.bytes = fileOf log) :
    ∃ base tmps last, Current own (readhistfile false tim Session.empty file) base tmps last log := by
  have hsees : Sees own Session.empty [] [] 0 [] :=
    ⟨Ring.empty, fun _ h => absurd h List.not_mem_nil, Lists.nil⟩
  have hknows : Knows Session.empty.lasthist ([] : List (Logged σ)) :=
    ⟨Or.inl ⟨rfl, rfl⟩, Or.inl rfl⟩
  by_cases hsize : file.bytes.length = 0
  · have hnil := fileOf_eq_nil (hfile ▸ hsize)
    unfold readhistfile
    rw [if_pos hsize, hnil]
    exact ⟨[], [], 0, { hsees with knows := hknows }⟩
  · obtain ⟨s', start', hloop, hcurrent⟩ := readLoop_current false [] log tim hsees
      nofun (fun _ => hknows) (Or.inl rfl)
    have hentries : readEntries false tim Session.empty file.bytes = (s', start') := by
      rw [hfile]
      exact hloop
    rw [readhistfile_eq tim Session.empty file hsize (fun h => Bool.false_ne_true h.1) hentries]
    exact hcurrent

end

end NextBSD.Zsh.History
