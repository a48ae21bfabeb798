import Mathlib.Data.List.TakeWhile
import NextBSD.Library.NameLookup

/-!
# Opening the file to edit

`edit_open.c` on a system with `O_NOFOLLOW`.  The path is a buffer that is written to and restored;
the byte after it is its end.  What the invoking user can write does not change during the call.
-/

namespace NextBSD.Sudoedit

open NameLookup

variable {α : Type}

/-- What `dir_is_writable` finds out about a directory: 1, 0, or -1 for an error. -/
structure Writable (α : Type) where
  writable : α → Bool
  fails : α → Bool

def dirIsWritable (user : Writable α) (d : α) : Int :=
  if user.fails d then -1 else if user.writable d then 1 else 0

def dirOpenFlags : OpenFlags :=
  { creat := false, excl := false, directory := true, nofollow := false, write := false }

def sudoEditOpenatNofollow (fs : FileSystem α) (d : α) (path : Name) (flags : OpenFlags) :
    Option (Opened α) :=
  fs.openat d path { flags with nofollow := true }

def stringAt (buf : List UInt8) (pos : Nat) : List UInt8 := (buf.drop pos).takeWhile (· ≠ 0)

/-- `path + strspn(path, "/")`. -/
def skipSlashes (buf : List UInt8) (pos : Nat) : Nat :=
  pos + ((stringAt buf pos).takeWhile (· = slash)).length

theorem le_skipSlashes (buf : List UInt8) (pos : Nat) : pos ≤ skipSlashes buf pos :=
  Nat.le_add_right _ _

/-- `strchr(path, '/')`. -/
def strchrSlash (buf : List UInt8) (pos : Nat) : Option Nat :=
  ((stringAt buf pos).idxOf? slash).map (pos + ·)

theorem strchrSlash_bounds {buf : List UInt8} {pos i : Nat} (h : strchrSlash buf pos = some i) :
    pos ≤ i ∧ i < buf.length := by
  obtain ⟨k, hk, rfl⟩ := Option.map_eq_some_iff.mp h
  have hlt := (List.idxOf?_eq_some_iff.mp hk).1
  have hle : (stringAt buf pos).length ≤ (buf.drop pos).length :=
    (List.takeWhile_sublist _).length_le
  rw [List.length_drop] at hle
  omega

/-! ## The walk -/

/-- The loop of `sudo_edit_open_nonwritable`, with the links followed so far. -/
def openComponents (fs : FileSystem α) (user : Writable α) (flags : OpenFlags)
    (buf : List UInt8) (pos : Nat) (d : α) (followed : List α) :
    Option (Opened α) × List UInt8 :=
  let writable := dirIsWritable user d
  if writable = -1 then (none, buf)
  else
    let first := skipSlashes buf pos
    match h : strchrSlash buf first with
    | none =>
      if writable ≠ 0 then (none, buf)
      else
        let path := if stringAt buf first = [] then dot else stringAt buf first
        ((fs.openat d path flags).map (Opened.after followed), buf)
    | some i =>
      let cut := buf.set i 0
      let sub :=
        if writable ≠ 0 then sudoEditOpenatNofollow fs d (stringAt cut first) dirOpenFlags
        else fs.openat d (stringAt cut first) dirOpenFlags
      let buf' := cut.set i slash
      match sub with
      | none => (none, buf')
      | some opened =>
        match opened.object with
        | none => (none, buf')
        | some subdir =>
          openComponents fs user flags buf' (i + 1) subdir (followed ++ opened.followed)
termination_by buf.length - pos
decreasing_by
  have hbounds := strchrSlash_bounds h
  have hskip := le_skipSlashes buf pos
  rw [List.length_set, List.length_set]
  omega

def walkStart (path : List UInt8) : Name × Nat :=
  match path with
  | c :: rest =>
    if c = slash then ([slash], 1)
    else if [c] = dot ∧ rest.head? = some slash then (dot, 2)
    else (dot, 0)
  | [] => (dot, 0)

def sudoEditOpenNonwritable (fs : FileSystem α) (user : Writable α) (path : List UInt8)
    (flags : OpenFlags) : Option (Opened α) × List UInt8 :=
  match fs.openat fs.cwd (walkStart path).1 dirOpenFlags with
  | none => (none, path)
  | some opened =>
    match opened.object with
    | none => (none, path)
    | some d => openComponents fs user flags path (walkStart path).2 d opened.followed

/-- `CD_SUDOEDIT_FOLLOW` and `CD_SUDOEDIT_CHECKDIR`. -/
structure EditFlags where
  follow : Bool
  checkdir : Bool
  deriving DecidableEq

/-- The flags that `sudo_edit_open` opens the file with. -/
def editOpenFlags (flags : OpenFlags) (sflags : EditFlags) : OpenFlags :=
  if sflags.follow then flags else { flags with nofollow := true }

def sudoEditOpen (fs : FileSystem α) (user : Writable α) (uid : Nat) (path : List UInt8)
    (flags : OpenFlags) (sflags : EditFlags) : Option (Opened α) × List UInt8 :=
  if sflags.checkdir ∧ uid ≠ 0 then
    sudoEditOpenNonwritable fs user path (editOpenFlags flags sflags)
  else (fs.openat fs.cwd path (editOpenFlags flags sflags), path)

end NextBSD.Sudoedit

/-!
## Directories that the user can write

The walk of `sudo_edit_open_nonwritable` follows no link that stands in a directory the user can
write.  A link that stands elsewhere is left to the kernel, which looks at no directory.
-/

namespace NextBSD.Sudoedit

open NameLookup

variable {α : Type} {fs : FileSystem α} {user : Writable α} {flags : OpenFlags}

section buffer

variable {buf : List UInt8} {pos i : Nat}

theorem stringAt_eq (hnul : 0 ∉ buf) (pos : Nat) : stringAt buf pos = buf.drop pos := by
  unfold stringAt
  refine List.takeWhile_eq_self_iff.mpr (fun c hc => ?_)
  rw [decide_eq_true_eq]
  rintro rfl
  exact hnul (List.mem_of_mem_drop hc)

theorem drop_skipSlashes (hnul : 0 ∉ buf) (pos : Nat) :
    buf.drop (skipSlashes buf pos) = (buf.drop pos).dropWhile (· = slash) := by
  have hsplit (l : List UInt8) :
      l.drop (l.takeWhile (· = slash)).length = l.dropWhile (· = slash) := by
    induction l with
    | nil => rfl
    | cons c l ih => by_cases hc : c = slash <;> simp [hc, ih]
  unfold skipSlashes
  rw [stringAt_eq hnul, ← List.drop_drop]
  exact hsplit (buf.drop pos)

theorem names_skipSlashes (hnul : 0 ∉ buf) (pos : Nat) :
    names (buf.drop (skipSlashes buf pos)) = names (buf.drop pos) := by
  rw [drop_skipSlashes hnul, names_dropWhile]

theorem strchrSlash_eq_none (hnul : 0 ∉ buf) (h : strchrSlash buf pos = none) :
    slash ∉ buf.drop pos := by
  unfold strchrSlash at h
  rw [Option.map_eq_none_iff, List.idxOf?_eq_none_iff, stringAt_eq hnul] at h
  exact h

theorem strchrSlash_eq_some (hnul : 0 ∉ buf) (h : strchrSlash buf pos = some i) :
    ∃ piece, slash ∉ piece ∧ buf.drop pos = piece ++ slash :: buf.drop (i + 1) ∧
      i = pos + piece.length := by
  obtain ⟨k, hk, rfl⟩ := Option.map_eq_some_iff.mp h
  rw [stringAt_eq hnul] at hk
  obtain ⟨hlt, hat, hbefore⟩ := List.idxOf?_eq_some_iff.mp hk
  have hlength : ((buf.drop pos).take k).length = k := by
    rw [List.length_take]
    omega
  refine ⟨(buf.drop pos).take k, fun hmem => ?_, ?_, by rw [hlength]⟩
  · obtain ⟨j, hj, hslash⟩ := List.mem_iff_getElem.mp hmem
    rw [List.getElem_take] at hslash
    exact hbefore j (by omega) hslash
  · have hrest : buf.drop (pos + k + 1) = (buf.drop pos).drop (k + 1) := by
      rw [List.drop_drop]
      rfl
    rw [hrest, ← hat, List.getElem_cons_drop, List.take_append_drop]

theorem stringAt_cut (hnul : 0 ∉ buf) {piece rest : List UInt8}
    (h : buf.drop pos = piece ++ slash :: rest) :
    stringAt (buf.set (pos + piece.length) 0) pos = piece := by
  have hpiece (c : UInt8) (hc : c ∈ piece) : c ≠ 0 := by
    rintro rfl
    exact hnul (List.mem_of_mem_drop (h ▸ List.mem_append_left _ hc))
  have hset : (piece ++ slash :: rest).set piece.length 0 = piece ++ 0 :: rest := by
    rw [List.set_append_right _ _ (Nat.le_refl _), Nat.sub_self, List.set_cons_zero]
  unfold stringAt
  rw [List.drop_set, if_neg (by omega), Nat.add_sub_cancel_left, h, hset,
    List.takeWhile_append_of_pos (fun c hc => decide_eq_true (hpiece c hc)),
    List.takeWhile_cons_of_neg (by simp), List.append_nil]

theorem set_restored {piece rest : List UInt8} (h : buf.drop pos = piece ++ slash :: rest) :
    (buf.set (pos + piece.length) 0).set (pos + piece.length) slash = buf := by
  have hat : buf[pos + piece.length]? = some slash := by
    rw [← List.getElem?_drop, h, List.getElem?_append_right (Nat.le_refl _), Nat.sub_self]
    rfl
  obtain ⟨hlt, heq⟩ := List.getElem?_eq_some_iff.mp hat
  rw [List.set_set, ← heq, List.set_getElem_self]

end buffer

/-- The walk of `openComponents` on the names themselves. -/
def openNames (fs : FileSystem α) (user : Writable α) (flags : OpenFlags) :
    List Name → α → List α → Option (Opened α)
  | [], _, _ => none
  | name :: rest, d, followed =>
    if dirIsWritable user d = -1 then none
    else if rest = [] then
      if dirIsWritable user d ≠ 0 then none
      else (fs.openat d name flags).map (Opened.after followed)
    else
      match if dirIsWritable user d ≠ 0 then sudoEditOpenatNofollow fs d name dirOpenFlags
        else fs.openat d name dirOpenFlags with
      | none => none
      | some opened =>
        match opened.object with
        | none => none
        | some subdir => openNames fs user flags rest subdir (followed ++ opened.followed)

theorem openNames_fails {d : α} (h : dirIsWritable user d = -1) (path : List Name)
    (followed : List α) : openNames fs user flags path d followed = none := by
  cases path with
  | nil => rfl
  | cons name rest => rw [openNames, if_pos h]

theorem openComponents_eq {buf : List UInt8} (hnul : 0 ∉ buf) (pos : Nat) (d : α)
    (followed : List α) :
    openComponents fs user flags buf pos d followed =
      (openNames fs user flags (names (buf.drop pos)) d followed, buf) := by
  induction hn : buf.length - pos using Nat.strong_induction_on generalizing pos d followed with
  | _ n ih =>
    rw [openComponents, ← names_skipSlashes hnul]
    have hskip := le_skipSlashes buf pos
    dsimp only
    split
    · next hfails => rw [openNames_fails hfails]
    · next hworks =>
      split
      · next hslash =>
        rw [names_of_not_mem (strchrSlash_eq_none hnul hslash), openNames, stringAt_eq hnul,
          if_neg hworks, if_pos rfl]
        split <;> rfl
      · next i hslash =>
        obtain ⟨piece, hpiece, hdrop, rfl⟩ := strchrSlash_eq_some hnul hslash
        have hne : piece ≠ [] := by
          rintro rfl
          have hhead := List.head?_dropWhile_not (· = slash) (buf.drop pos)
          rw [← drop_skipSlashes hnul, hdrop] at hhead
          simp at hhead
        have hbounds := strchrSlash_bounds hslash
        rw [hdrop, names_append_slash hne hpiece, openNames, stringAt_cut hnul hdrop,
          set_restored hdrop, if_neg hworks, if_neg (names_ne_nil _)]
        generalize (if dirIsWritable user d ≠ 0 then
          sudoEditOpenatNofollow fs d piece dirOpenFlags
          else fs.openat d piece dirOpenFlags) = sub
        cases sub with
        | none => rfl
        | some opened =>
          dsimp only
          cases opened.object with
          | none => rfl
          | some subdir => exact ih _ (by omega) _ _ _ rfl

/-! ## The links that are met -/

structure Protected (user : Writable α) (path path' : List UInt8) (o : Opened α) : Prop where
  links : ∀ d ∈ o.followed, user.writable d = false
  located : user.writable o.dir = false
  restored : path' = path

/-- The target of a link in a directory goes through no link in a directory the user can write. -/
def TargetAvoids (fs : FileSystem α) (user : Writable α) (d : α) (target : Name) : Prop :=
  ∀ found, fs.resolveTarget d target = some found → ∀ e ∈ found.followed, user.writable e = false

/-- The target of a link in a directory ends in a directory the user cannot write. -/
def TargetLocated (fs : FileSystem α) (user : Writable α) (d : α) (target : Name) : Prop :=
  ∀ found, fs.resolveTarget d target = some found → user.writable found.dir = false

/-- The links that a path meets, one name after the other, in directories the user cannot write have
good targets.  One under the last name counts if it is followed. -/
def LinksAvoid (fs : FileSystem α) (user : Writable α) (followLast : Bool) (d : α)
    (path : List Name) : Prop :=
  ∀ before name after e target, path = before ++ name :: after → fs.reach d before = some e →
    user.writable e = false → fs.LinkAt e name target → (after = [] → followLast = true) →
    TargetAvoids fs user e target ∧ (after = [] → TargetLocated fs user e target)

variable {followLast : Bool} {d : α} {name : Name} {rest : List Name}

theorem linksAvoid_cons : LinksAvoid fs user followLast d (name :: rest) ↔
    (∀ target, user.writable d = false → fs.LinkAt d name target → (rest = [] → followLast = true) →
      TargetAvoids fs user d target ∧ (rest = [] → TargetLocated fs user d target)) ∧
    ∀ e, fs.subdirectory d name = some e → LinksAvoid fs user followLast e rest := by
  constructor
  · intro h
    refine ⟨fun target => h [] name rest d target rfl rfl, fun e he => ?_⟩
    intro before next after e' target hpath hreach
    refine h (name :: before) next after e' target (by rw [hpath, List.cons_append]) ?_
    unfold FileSystem.reach
    rw [List.foldlM_cons, he]
    exact hreach
  · intro h before next after e target hpath hreach
    cases before with
    | nil =>
      obtain ⟨rfl, rfl⟩ := List.cons.inj hpath
      obtain rfl := Option.some.inj hreach
      exact h.1 target
    | cons first before =>
      obtain ⟨rfl, rfl⟩ := List.cons.inj hpath
      unfold FileSystem.reach at hreach
      rw [List.foldlM_cons] at hreach
      obtain ⟨sub, hsub, hreach⟩ := Option.bind_eq_some_iff.mp hreach
      exact h.2 sub hsub before next after e target rfl hreach

theorem linksAvoid_nil : LinksAvoid fs user followLast d [] := by
  intro before name after e target hpath
  exact absurd hpath.symm (List.append_ne_nil_of_right_ne_nil before (List.cons_ne_nil name after))

theorem linksAvoid_dot (hdir : fs.isDir d = true) (hsub : fs.subdirectory d dot = some d) :
    LinksAvoid fs user followLast d (dot :: rest) ↔ LinksAvoid fs user followLast d rest := by
  rw [linksAvoid_cons]
  constructor
  · intro h
    exact h.2 d hsub
  · intro h
    refine ⟨fun target _ hlink => absurd hlink (FileSystem.not_linkAt_dot hdir), fun e he => ?_⟩
    rw [hsub] at he
    exact Option.some.inj he ▸ h

theorem writable_of_ne_zero (hworks : dirIsWritable user d ≠ -1) :
    dirIsWritable user d ≠ 0 ↔ user.writable d = true := by
  unfold dirIsWritable at hworks ⊢
  split at hworks
  · exact absurd rfl hworks
  · next hfails =>
    rw [if_neg hfails]
    cases user.writable d <;> decide

theorem forall_append_iff {followed more : List α} :
    (∀ e ∈ followed ++ more, user.writable e = false) ↔
      (∀ e ∈ followed, user.writable e = false) ∧ ∀ e ∈ more, user.writable e = false := by
  simp only [List.mem_append, or_imp, forall_and]

theorem openat_last_iff {o : Opened α} (hname : Proper name) (hd : user.writable d = false)
    (h : fs.openat d name flags = some o) :
    ((∀ e ∈ o.followed, user.writable e = false) ∧ user.writable o.dir = false) ↔
      LinksAvoid fs user flags.followLast d [name] := by
  rw [linksAvoid_cons]
  rcases FileSystem.openat_cases hname h with
    ⟨hnone, hdir, hfollowed⟩ | ⟨hlast, target, found, hlink, hfound, hdir, hfollowed⟩
  · rw [hdir, hfollowed]
    refine iff_of_true ⟨fun e he => absurd he List.not_mem_nil, hd⟩ ⟨?_, fun e _ => linksAvoid_nil⟩
    exact fun target _ hlink => absurd hlink (hnone target)
  · rw [hdir, hfollowed]
    constructor
    · intro hgood
      refine ⟨fun target' _ hlink' _ => ?_, fun e _ => linksAvoid_nil⟩
      obtain rfl := hlink.unique hlink'
      constructor
      · intro found' hfound' e he
        rw [hfound] at hfound'
        obtain rfl := Option.some.inj hfound'
        exact hgood.1 e (List.mem_cons_of_mem d he)
      · intro _ found' hfound'
        rw [hfound] at hfound'
        obtain rfl := Option.some.inj hfound'
        exact hgood.2
    · intro hgood
      obtain ⟨havoids, hlocated⟩ := hgood.1 target hd hlink (fun _ => hlast)
      refine ⟨fun e he => ?_, hlocated rfl found hfound⟩
      rcases List.mem_cons.mp he with rfl | he
      · exact hd
      · exact havoids found hfound e he

theorem openat_sub_iff {o : Opened α} {sub : α} (hname : Proper name) (hrest : rest ≠ [])
    (hworks : dirIsWritable user d ≠ -1)
    (h : (if dirIsWritable user d ≠ 0 then sudoEditOpenatNofollow fs d name dirOpenFlags
      else fs.openat d name dirOpenFlags) = some o) (hsub : o.object = some sub) :
    ((∀ e ∈ o.followed, user.writable e = false) ∧ LinksAvoid fs user followLast sub rest) ↔
      LinksAvoid fs user followLast d (name :: rest) := by
  rw [linksAvoid_cons]
  cases hd : user.writable d with
  | true =>
    rw [if_pos ((writable_of_ne_zero hworks).mpr hd)] at h
    have hlead : fs.subdirectory d name = some sub :=
      (FileSystem.subdirectory_of_nofollow hname h).trans hsub
    have hfollowed : o.followed = [] := by
      rcases FileSystem.openat_cases hname h with ⟨-, -, hfollowed⟩ | ⟨hlast, -⟩
      · exact hfollowed
      · exact absurd hlast Bool.false_ne_true
    rw [hfollowed, hlead]
    constructor
    · rintro ⟨-, hgood⟩
      refine ⟨fun _ hfalse => Bool.noConfusion hfalse, fun e he => ?_⟩
      exact Option.some.inj he ▸ hgood
    · rintro ⟨-, hgood⟩
      exact ⟨fun e he => absurd he List.not_mem_nil, hgood sub rfl⟩
  | false =>
    have hzero : ¬ dirIsWritable user d ≠ 0 := by
      rw [writable_of_ne_zero hworks, hd]
      exact Bool.false_ne_true
    rw [if_neg hzero] at h
    have hlead : fs.subdirectory d name = some sub := by
      unfold FileSystem.subdirectory
      change (fs.openat d name dirOpenFlags).bind Opened.object = some sub
      rw [h]
      exact hsub
    rw [hlead]
    rcases FileSystem.openat_cases hname h with
      ⟨hnone, -, hfollowed⟩ | ⟨-, target, found, hlink, hfound, -, hfollowed⟩
    · rw [hfollowed]
      constructor
      · rintro ⟨-, hgood⟩
        refine ⟨fun target _ hlink => absurd hlink (hnone target), fun e he => ?_⟩
        exact Option.some.inj he ▸ hgood
      · rintro ⟨-, hgood⟩
        exact ⟨fun e he => absurd he List.not_mem_nil, hgood sub rfl⟩
    · rw [hfollowed]
      constructor
      · rintro ⟨hlinks, hgood⟩
        refine ⟨fun target' _ hlink' _ => ⟨?_, fun hnil => absurd hnil hrest⟩, fun e he => ?_⟩
        · obtain rfl := hlink.unique hlink'
          intro found' hfound' e he
          rw [hfound] at hfound'
          obtain rfl := Option.some.inj hfound'
          exact hlinks e (List.mem_cons_of_mem d he)
        · exact Option.some.inj he ▸ hgood
      · rintro ⟨hhead, hgood⟩
        refine ⟨fun e he => ?_, hgood sub rfl⟩
        rcases List.mem_cons.mp he with rfl | he
        · exact hd
        · exact (hhead target rfl hlink (fun hnil => absurd hnil hrest)).1 found hfound e he

theorem openNames_iff {path : List Name} {followed : List α} {o : Opened α}
    (hproper : ∀ name ∈ path, Proper name)
    (h : openNames fs user flags path d followed = some o) :
    ((∀ e ∈ o.followed, user.writable e = false) ∧ user.writable o.dir = false) ↔
      (∀ e ∈ followed, user.writable e = false) ∧
        LinksAvoid fs user flags.followLast d path := by
  induction path generalizing d followed with
  | nil => exact absurd h (Option.some_ne_none o).symm
  | cons name rest ih =>
    have hname := hproper name List.mem_cons_self
    unfold openNames at h
    split at h
    · exact absurd h (Option.some_ne_none o).symm
    · next hworks =>
      split at h
      · next hlast =>
        split at h
        · exact absurd h (Option.some_ne_none o).symm
        · next hzero =>
          obtain ⟨opened, hopened, rfl⟩ := Option.map_eq_some_iff.mp h
          have hd : user.writable d = false :=
            eq_false_of_ne_true (fun hd => hzero ((writable_of_ne_zero hworks).mpr hd))
          rw [hlast, ← openat_last_iff hname hd hopened, ← and_assoc, ← forall_append_iff]
          rfl
      · next hrest =>
        split at h
        · exact absurd h (Option.some_ne_none o).symm
        · next opened hopened =>
          cases hobject : opened.object with
          | none =>
            rw [hobject] at h
            exact absurd h (Option.some_ne_none o).symm
          | some sub =>
            rw [hobject] at h
            rw [ih (fun next hnext => hproper next (List.mem_cons_of_mem name hnext)) h,
              forall_append_iff, and_assoc, openat_sub_iff hname hrest hworks hopened hobject]

theorem walkStart_spec (user : Writable α) (followLast : Bool) {path : List UInt8} {o : Opened α}
    (h : fs.openat fs.cwd (walkStart path).1 dirOpenFlags = some o) :
    o.object = some (fs.start fs.cwd path) ∧ o.followed = [] ∧
      (LinksAvoid fs user followLast (fs.start fs.cwd path) (names (path.drop (walkStart path).2)) ↔
        LinksAvoid fs user followLast (fs.start fs.cwd path) (names path)) := by
  have hslash : names [slash] = [dot] := by decide
  have hdot : names dot = [dot] := by decide
  cases path with
  | nil =>
    obtain ⟨-, hobject, hfollowed⟩ := FileSystem.openat_dot hdot h
    exact ⟨hobject, hfollowed, Iff.rfl⟩
  | cons c rest =>
    unfold walkStart at h ⊢
    dsimp only at h ⊢
    by_cases hc : c = slash
    · rw [if_pos hc] at h
      obtain ⟨-, hobject, hfollowed⟩ := FileSystem.openat_dot hslash h
      rw [if_pos hc, hc]
      refine ⟨hobject, hfollowed, ?_⟩
      rw [names_cons_slash]
      exact Iff.rfl
    · have hstart : fs.start fs.cwd (c :: rest) = fs.cwd :=
        if_neg (fun hhead => hc (Option.some.inj hhead))
      rw [if_neg hc] at h ⊢
      rw [hstart]
      by_cases hskip : [c] = dot ∧ rest.head? = some slash
      · rw [if_pos hskip] at h ⊢
        obtain ⟨hdir, hobject, hfollowed⟩ := FileSystem.openat_dot hdot h
        refine ⟨hobject, hfollowed, ?_⟩
        obtain ⟨hpiece, hhead⟩ := hskip
        obtain ⟨tail, rfl⟩ := List.head?_eq_some_iff.mp hhead
        have hnames : names (c :: slash :: tail) = dot :: names tail := by
          rw [← hpiece]
          exact names_append_slash (List.cons_ne_nil c [])
            (fun hmem => hc (List.mem_singleton.mp hmem).symm) tail
        have hsub : fs.subdirectory fs.cwd dot = some fs.cwd := by
          unfold FileSystem.subdirectory
          change (fs.openat fs.cwd dot dirOpenFlags).bind Opened.object = _
          rw [h]
          exact hobject
        rw [hnames]
        exact (linksAvoid_dot hdir hsub).symm
      · rw [if_neg hskip] at h ⊢
        obtain ⟨-, hobject, hfollowed⟩ := FileSystem.openat_dot hdot h
        exact ⟨hobject, hfollowed, Iff.rfl⟩

theorem sudoEditOpen_restored (fs : FileSystem α) (user : Writable α) (uid : Nat)
    {path : List UInt8} (hnul : 0 ∉ path) (flags : OpenFlags) (sflags : EditFlags) :
    (sudoEditOpen fs user uid path flags sflags).2 = path := by
  unfold sudoEditOpen
  split
  · unfold sudoEditOpenNonwritable
    split
    · rfl
    · split
      · rfl
      · rw [openComponents_eq hnul]
  · rfl

/-- A call that succeeds has kept to directories that the user cannot write if and only if the links
that the path meets elsewhere do. -/
theorem sudoEditOpen_protected_iff (fs : FileSystem α) (user : Writable α) (uid : Nat)
    (path path' : List UInt8) (flags : OpenFlags) (sflags : EditFlags) (o : Opened α)
    (hcheck : sflags.checkdir = true) (huid : uid ≠ 0) (hnul : 0 ∉ path)
    (h : sudoEditOpen fs user uid path flags sflags = (some o, path')) :
    Protected user path path' o ↔
      LinksAvoid fs user (editOpenFlags flags sflags).followLast (fs.start fs.cwd path)
        (names path) := by
  have hrestored : path' = path := by
    rw [← sudoEditOpen_restored fs user uid hnul flags sflags, h]
  unfold sudoEditOpen at h
  rw [if_pos ⟨hcheck, huid⟩] at h
  unfold sudoEditOpenNonwritable at h
  split at h
  · exact absurd (congrArg Prod.fst h) (Option.some_ne_none o).symm
  · next opened hopened =>
    obtain ⟨hobject, hfollowed, hsame⟩ := walkStart_spec user (editOpenFlags flags sflags).followLast
      hopened
    rw [hobject, hfollowed] at h
    dsimp only at h
    rw [openComponents_eq hnul] at h
    have hgood := openNames_iff (fun name hname => proper_of_mem_names hname)
      (congrArg Prod.fst h)
    rw [hsame] at hgood
    constructor
    · intro hprotected
      exact (hgood.mp ⟨hprotected.links, hprotected.located⟩).2
    · intro havoid
      obtain ⟨hlinks, hlocated⟩ := hgood.mpr ⟨fun e he => absurd he List.not_mem_nil, havoid⟩
      exact ⟨hlinks, hlocated, hrestored⟩

/-- A directory `e` with the file `f`, a directory `w` that the user can write, and links: `e/l` to
`/w/x`, `w/x` to `/e`. -/
def nestedLinks : FileSystem Nat where
  node
    | 0 => .dir 0 [([101], 1), ([119], 2)]
    | 1 => .dir 0 [([108], 3), ([102], 4)]
    | 2 => .dir 0 [([120], 5)]
    | 3 => .link [47, 119, 47, 120]
    | 5 => .link [47, 101]
    | _ => .file
  root := 0
  cwd := 0
  maxLinks := 32
  permits _ := true

def ownerOfW : Writable Nat := { writable := (· == 2), fails := fun _ => false }

theorem sudoEditOpen_protected_iff_file :
    Protected ownerOfW [47, 101, 47, 102] [47, 101, 47, 102] ⟨1, [102], some 4, []⟩ ↔
      LinksAvoid nestedLinks ownerOfW false 0 [[101], [102]] :=
  sudoEditOpen_protected_iff nestedLinks ownerOfW 1000 [47, 101, 47, 102] [47, 101, 47, 102]
    ⟨false, false, false, false, false⟩ ⟨false, true⟩ ⟨1, [102], some 4, []⟩ rfl (by decide)
    (by decide) (by decide +kernel)

/-- `/e/l/f` is opened through the link in the directory that the user can write. -/
theorem not_sudoEditOpen_protected :
    ¬ ∀ (fs : FileSystem Nat) (user : Writable Nat) (uid : Nat) (path path' : List UInt8)
      (flags : OpenFlags) (sflags : EditFlags) (o : Opened Nat), sflags.checkdir = true →
      uid ≠ 0 → 0 ∉ path → sudoEditOpen fs user uid path flags sflags = (some o, path') →
      Protected user path path' o := by
  intro hall
  have hprotected := hall nestedLinks ownerOfW 1000 [47, 101, 47, 108, 47, 102]
    [47, 101, 47, 108, 47, 102] ⟨false, false, false, false, false⟩ ⟨false, true⟩
    ⟨1, [102], some 4, [1, 2]⟩ rfl (by decide) (by decide) (by decide +kernel)
  exact Bool.noConfusion (hprotected.links 2 (by decide))

end NextBSD.Sudoedit
