import Mathlib.Data.List.Infix

/-!
# Looking up path names

A file system of directories, files and symbolic links, and `openat` on it.  A link is resolved where
it is met: its target takes the place of its name, and the walk remembers the directory that the
link was in.  Errors are not told apart.
-/

namespace NextBSD.NameLookup

abbrev Name := List UInt8

def slash : UInt8 := 47

def dot : Name := [46]

def dotdot : Name := [46, 46]

inductive Node (α : Type) where
  | dir (parent : α) (entries : List (Name × α))
  | file
  | link (target : Name)

/-- The objects, with the root, the current directory, the number of links that one lookup may
follow, and the objects that the process may search and open. -/
structure FileSystem (α : Type) where
  node : α → Node α
  root : α
  cwd : α
  maxLinks : Nat
  permits : α → Bool

/-- Empty pieces are dropped, but an empty last one names the directory itself. -/
def namesOfPieces : List (List UInt8) → List Name
  | [] => []
  | piece :: rest =>
    if rest = [] then [if piece = [] then dot else piece]
    else if piece = [] then namesOfPieces rest
    else piece :: namesOfPieces rest

def names (path : List UInt8) : List Name := namesOfPieces (path.splitOn slash)

/-- What a lookup has found: the directory of the last name, the name, the object under it if there
is one, and the directories of the links followed. -/
structure Found (α : Type) where
  dir : α
  name : Name
  object : Option α
  followed : List α

def Found.after {α : Type} (followed : List α) (found : Found α) : Found α :=
  { found with followed := followed ++ found.followed }

variable {α : Type}

namespace FileSystem

def isDir (fs : FileSystem α) (d : α) : Bool :=
  match fs.node d with
  | .dir _ _ => true
  | _ => false

def linkTarget (fs : FileSystem α) (x : α) : Option Name :=
  match fs.node x with
  | .link target => some target
  | _ => none

def entry (fs : FileSystem α) (d : α) (name : Name) : Option α :=
  match fs.node d with
  | .dir parent entries =>
    if name = dot then some d
    else if name = dotdot then some parent
    else entries.lookup name
  | _ => none

def start (fs : FileSystem α) (d : α) (path : Name) : α :=
  if path.head? = some slash then fs.root else d

def walkVia (fs : FileSystem α) (followLast : Bool) (next : α → List Name → Option (Found α)) :
    α → List Name → Option (Found α)
  | _, [] => none
  | d, name :: rest =>
    if fs.isDir d && fs.permits d then
      match fs.entry d name with
      | none => if rest = [] then some ⟨d, name, none, []⟩ else none
      | some x =>
        match fs.linkTarget x with
        | none => if rest = [] then some ⟨d, name, some x, []⟩ else walkVia fs followLast next x rest
        | some target =>
          if rest = [] ∧ followLast = false then some ⟨d, name, some x, []⟩
          else if target = [] then none
          else (next (fs.start d target) (names target ++ rest)).map (Found.after [d])
    else none

def walk (fs : FileSystem α) (followLast : Bool) : Nat → α → List Name → Option (Found α)
  | 0 => fs.walkVia followLast (fun _ _ => none)
  | links + 1 => fs.walkVia followLast (walk fs followLast links)

end FileSystem

/-- The flags of `openat`: `O_CREAT`, `O_EXCL`, `O_DIRECTORY` and `O_NOFOLLOW`, and whether the file
is opened for writing. -/
structure OpenFlags where
  creat : Bool
  excl : Bool
  directory : Bool
  nofollow : Bool
  write : Bool
  deriving DecidableEq

/-- An object that has been opened, or `none` for a new file, and how it was found. -/
structure Opened (α : Type) where
  dir : α
  name : Name
  object : Option α
  followed : List α
  deriving DecidableEq

def Opened.after (followed : List α) (opened : Opened α) : Opened α :=
  { opened with followed := followed ++ opened.followed }

def OpenFlags.followLast (flags : OpenFlags) : Bool :=
  !flags.nofollow && !(flags.creat && flags.excl)

namespace FileSystem

def openObject (fs : FileSystem α) (flags : OpenFlags) (x : α) : Bool :=
  fs.permits x && !(flags.creat && flags.excl) &&
    match fs.node x with
    | .link _ => false
    | .dir _ _ => !flags.creat && !flags.write
    | .file => !flags.directory

def openFound (fs : FileSystem α) (flags : OpenFlags) (found : Found α) : Option (Opened α) :=
  match found.object with
  | none =>
    if flags.creat && !flags.directory then some ⟨found.dir, found.name, none, found.followed⟩
    else none
  | some x =>
    if fs.openObject flags x then some ⟨found.dir, found.name, some x, found.followed⟩ else none

def openat (fs : FileSystem α) (d : α) (path : Name) (flags : OpenFlags) : Option (Opened α) :=
  if path = [] then none
  else
    (fs.walk flags.followLast fs.maxLinks (fs.start d path) (names path)).bind (fs.openFound flags)

end FileSystem

theorem names_cons_slash (path : List UInt8) : names (slash :: path) = names path := by
  have hsplit : (slash :: path).splitOn slash = [] :: path.splitOn slash :=
    List.splitOn_append_cons_self [] path
  have hne : path.splitOn slash ≠ [] := List.splitOn_ne_nil slash path
  unfold names
  rw [hsplit, namesOfPieces, if_neg hne, if_pos rfl]

theorem names_of_not_mem {piece : List UInt8} (h : slash ∉ piece) :
    names piece = [if piece = [] then dot else piece] := by
  unfold names
  rw [List.splitOn_eq_singleton h, namesOfPieces, if_pos rfl]

theorem names_append_slash {piece : Name} (hne : piece ≠ []) (h : slash ∉ piece)
    (path : List UInt8) : names (piece ++ slash :: path) = piece :: names path := by
  have hsplit : (piece ++ slash :: path).splitOn slash = [piece] ++ path.splitOn slash := by
    rw [List.splitOn_append_cons_self, List.splitOn_eq_singleton h]
  have hrest : path.splitOn slash ≠ [] := List.splitOn_ne_nil slash path
  unfold names
  rw [hsplit, List.singleton_append, namesOfPieces, if_neg hrest, if_neg hne]

theorem names_dropWhile (path : List UInt8) : names (path.dropWhile (· = slash)) = names path := by
  induction path with
  | nil => rfl
  | cons c path ih =>
    by_cases hc : c = slash
    · rw [List.dropWhile_cons_of_pos (by simpa using hc), hc, names_cons_slash, ih]
    · rw [List.dropWhile_cons_of_neg (by simpa using hc)]

theorem namesOfPieces_ne_nil {pieces : List (List UInt8)} (h : pieces ≠ []) :
    namesOfPieces pieces ≠ [] := by
  induction pieces with
  | nil => exact absurd rfl h
  | cons piece rest ih =>
    unfold namesOfPieces
    split
    · exact List.cons_ne_nil _ _
    · next hrest =>
      split
      · exact ih hrest
      · exact List.cons_ne_nil _ _

theorem names_ne_nil (path : List UInt8) : names path ≠ [] :=
  namesOfPieces_ne_nil (List.splitOn_ne_nil slash path)

def Proper (name : Name) : Prop := name ≠ [] ∧ slash ∉ name

theorem names_proper {name : Name} (h : Proper name) : names name = [name] := by
  rw [names_of_not_mem h.2, if_neg h.1]

theorem proper_of_mem_names {path : List UInt8} {name : Name} (h : name ∈ names path) :
    Proper name := by
  induction hn : path.length using Nat.strong_induction_on generalizing path with
  | _ n ih =>
    by_cases hs : slash ∈ path
    · obtain ⟨piece, rest, rfl, hpiece⟩ := List.eq_append_cons_of_mem hs
      have hlt : rest.length < n := by
        rw [← hn, List.length_append, List.length_cons]
        omega
      by_cases hne : piece = []
      · rw [hne, List.nil_append, names_cons_slash] at h
        exact ih rest.length hlt h rfl
      · rw [names_append_slash hne hpiece] at h
        rcases List.mem_cons.mp h with rfl | h
        · exact ⟨hne, hpiece⟩
        · exact ih rest.length hlt h rfl
    · rw [names_of_not_mem hs, List.mem_singleton] at h
      rw [h]
      split
      · exact ⟨List.cons_ne_nil _ _, by decide⟩
      · next hne => exact ⟨hne, hs⟩

/-! ## One name -/

namespace FileSystem

variable {fs : FileSystem α} {flags : OpenFlags} {d x : α} {name target : Name} {o : Opened α}

def LinkAt (fs : FileSystem α) (d : α) (name target : Name) : Prop :=
  ∃ x, fs.entry d name = some x ∧ fs.linkTarget x = some target

theorem LinkAt.unique {target' : Name} (h : fs.LinkAt d name target)
    (h' : fs.LinkAt d name target') : target = target' := by
  obtain ⟨x, hx, ht⟩ := h
  obtain ⟨x', hx', ht'⟩ := h'
  rw [hx] at hx'
  rw [← Option.some.inj hx', ht] at ht'
  exact Option.some.inj ht'

def resolveTarget (fs : FileSystem α) (d : α) (target : Name) : Option (Found α) :=
  match fs.maxLinks with
  | 0 => none
  | links + 1 => fs.walk true links (fs.start d target) (names target)

def subdirectory (fs : FileSystem α) (d : α) (name : Name) : Option α :=
  (fs.openat d name
    { creat := false, excl := false, directory := true, nofollow := false, write := false }).bind
    Opened.object

def reach (fs : FileSystem α) (d : α) (path : List Name) : Option α := path.foldlM fs.subdirectory d

theorem start_proper (fs : FileSystem α) (d : α) (h : Proper name) : fs.start d name = d := by
  unfold start
  rw [if_neg]
  intro hhead
  exact h.2 (List.mem_of_mem_head? hhead)

theorem walk_single (fs : FileSystem α) (followLast : Bool) (d : α) (name : Name) :
    fs.walk followLast fs.maxLinks d [name] =
      if fs.isDir d && fs.permits d then
        match fs.entry d name with
        | none => some ⟨d, name, none, []⟩
        | some x =>
          match fs.linkTarget x with
          | none => some ⟨d, name, some x, []⟩
          | some target =>
            if followLast = false then some ⟨d, name, some x, []⟩
            else if target = [] then none
            else (fs.resolveTarget d target).map (Found.after [d])
      else none := by
  have hvia (next : α → List Name → Option (Found α))
      (hnext : followLast = true → ∀ target,
        next (fs.start d target) (names target) = fs.resolveTarget d target) :
      fs.walkVia followLast next d [name] =
        if fs.isDir d && fs.permits d then
          match fs.entry d name with
          | none => some ⟨d, name, none, []⟩
          | some x =>
            match fs.linkTarget x with
            | none => some ⟨d, name, some x, []⟩
            | some target =>
              if followLast = false then some ⟨d, name, some x, []⟩
              else if target = [] then none
              else (fs.resolveTarget d target).map (Found.after [d])
        else none := by
    unfold walkVia
    split
    · cases fs.entry d name with
      | none => rfl
      | some x =>
        dsimp only
        cases fs.linkTarget x with
        | none => rfl
        | some target =>
          dsimp only
          cases followLast with
          | false => rfl
          | true =>
            rw [if_neg (fun h => Bool.noConfusion h.2),
              if_neg (show ¬ (true = false) from Bool.noConfusion), List.append_nil, hnext rfl]
    · rfl
  cases hlinks : fs.maxLinks with
  | zero =>
    refine hvia _ (fun _ target => ?_)
    unfold resolveTarget
    rw [hlinks]
  | succ links =>
    refine hvia _ (fun hfollow target => ?_)
    unfold resolveTarget
    rw [hlinks, hfollow]

theorem openat_proper (fs : FileSystem α) (d : α) (h : Proper name) (flags : OpenFlags) :
    fs.openat d name flags =
      (fs.walk flags.followLast fs.maxLinks d [name]).bind (fs.openFound flags) := by
  unfold openat
  rw [if_neg h.1, start_proper fs d h, names_proper h]

theorem openObject_linkTarget (h : fs.openObject flags x = true) : fs.linkTarget x = none := by
  unfold openObject at h
  unfold linkTarget
  cases hnode : fs.node x with
  | link target =>
    rw [hnode, Bool.and_false] at h
    exact absurd h Bool.false_ne_true
  | dir parent entries => rfl
  | file => rfl

theorem openFound_eq {found : Found α} (h : fs.openFound flags found = some o) :
    o.dir = found.dir ∧ o.followed = found.followed ∧ o.object = found.object ∧
      ∀ x, found.object = some x → fs.openObject flags x = true := by
  unfold openFound at h
  cases hobject : found.object with
  | none =>
    rw [hobject] at h
    dsimp only at h
    split at h
    · obtain rfl := Option.some.inj h
      exact ⟨rfl, rfl, rfl, fun x hx => absurd hx (Option.some_ne_none x).symm⟩
    · exact absurd h (Option.some_ne_none o).symm
  | some x =>
    rw [hobject] at h
    dsimp only at h
    split at h
    · next hopen =>
      obtain rfl := Option.some.inj h
      exact ⟨rfl, rfl, rfl, fun y hy => Option.some.inj hy ▸ hopen⟩
    · exact absurd h (Option.some_ne_none o).symm

theorem openat_cases (hname : Proper name) (h : fs.openat d name flags = some o) :
    ((∀ target, ¬ fs.LinkAt d name target) ∧ o.dir = d ∧ o.followed = []) ∨
      (flags.followLast = true ∧ ∃ target found, fs.LinkAt d name target ∧
        fs.resolveTarget d target = some found ∧ o.dir = found.dir ∧
        o.followed = d :: found.followed) := by
  rw [openat_proper fs d hname, walk_single, Option.bind_eq_some_iff] at h
  obtain ⟨found, hfound, hopen⟩ := h
  obtain ⟨hdir, hfollowed, -, hobject⟩ := openFound_eq hopen
  split at hfound
  · cases hentry : fs.entry d name with
    | none =>
      rw [hentry] at hfound
      obtain rfl := Option.some.inj hfound
      refine Or.inl ⟨fun target hlink => ?_, hdir, hfollowed⟩
      obtain ⟨x, hx, -⟩ := hlink
      rw [hentry] at hx
      exact absurd hx (Option.some_ne_none x).symm
    | some x =>
      rw [hentry] at hfound
      dsimp only at hfound
      cases hlink : fs.linkTarget x with
      | none =>
        rw [hlink] at hfound
        obtain rfl := Option.some.inj hfound
        refine Or.inl ⟨fun target hat => ?_, hdir, hfollowed⟩
        obtain ⟨y, hy, htarget⟩ := hat
        rw [hentry] at hy
        rw [← Option.some.inj hy, hlink] at htarget
        exact absurd htarget (Option.some_ne_none target).symm
      | some target =>
        rw [hlink] at hfound
        dsimp only at hfound
        split at hfound
        · obtain rfl := Option.some.inj hfound
          rw [openObject_linkTarget (hobject x rfl)] at hlink
          exact absurd hlink (Option.some_ne_none target).symm
        · next hfollow =>
          split at hfound
          · exact absurd hfound (Option.some_ne_none found).symm
          · obtain ⟨last, hlast, rfl⟩ := Option.map_eq_some_iff.mp hfound
            exact Or.inr ⟨eq_true_of_ne_false hfollow, target, last,
              ⟨x, hentry, hlink⟩, hlast, hdir, hfollowed⟩
  · exact absurd hfound (Option.some_ne_none found).symm

theorem subdirectory_of_nofollow (hname : Proper name)
    (h : fs.openat d name
      { creat := false, excl := false, directory := true, nofollow := true, write := false } = some o) :
    fs.subdirectory d name = o.object := by
  have hcases := openat_cases hname h
  rcases hcases with ⟨hnone, -, -⟩ | ⟨hfollow, -⟩
  · have hsame : fs.walk true fs.maxLinks d [name] = fs.walk false fs.maxLinks d [name] := by
      rw [walk_single, walk_single]
      split
      · cases hentry : fs.entry d name with
        | none => rfl
        | some x =>
          dsimp only
          cases hlink : fs.linkTarget x with
          | none => rfl
          | some target => exact absurd ⟨x, hentry, hlink⟩ (hnone target)
      · rfl
    rw [openat_proper fs d hname] at h
    change (fs.walk false fs.maxLinks d [name]).bind _ = some o at h
    unfold subdirectory
    rw [openat_proper fs d hname]
    change ((fs.walk true fs.maxLinks d [name]).bind _).bind _ = _
    rw [hsame]
    change (fs.walk false fs.maxLinks d [name]).bind (fs.openFound
      { creat := false, excl := false, directory := true, nofollow := false, write := false }) = _ at h
    rw [h]
    rfl
  · exact absurd hfollow Bool.false_ne_true

theorem entry_dot (h : fs.isDir d = true) : fs.entry d dot = some d := by
  unfold isDir at h
  unfold entry
  cases hnode : fs.node d with
  | dir parent entries => exact if_pos rfl
  | file =>
    rw [hnode] at h
    exact absurd h Bool.false_ne_true
  | link target =>
    rw [hnode] at h
    exact absurd h Bool.false_ne_true

theorem linkTarget_of_isDir (h : fs.isDir d = true) : fs.linkTarget d = none := by
  unfold isDir at h
  unfold linkTarget
  cases hnode : fs.node d with
  | dir parent entries => rfl
  | file => rfl
  | link target =>
    rw [hnode] at h
    exact absurd h Bool.false_ne_true

theorem openat_dot {path : Name} (hnames : names path = [dot])
    (h : fs.openat d path flags = some o) :
    fs.isDir (fs.start d path) = true ∧ o.object = some (fs.start d path) ∧ o.followed = [] := by
  unfold openat at h
  split at h
  · exact absurd h (Option.some_ne_none o).symm
  · rw [hnames, walk_single, Option.bind_eq_some_iff] at h
    obtain ⟨found, hfound, hopen⟩ := h
    obtain ⟨-, hfollowed, hobject, -⟩ := openFound_eq hopen
    split at hfound
    · next hsearch =>
      rw [Bool.and_eq_true] at hsearch
      rw [entry_dot hsearch.1] at hfound
      dsimp only at hfound
      rw [linkTarget_of_isDir hsearch.1] at hfound
      obtain rfl := Option.some.inj hfound
      exact ⟨hsearch.1, hobject, hfollowed⟩
    · exact absurd hfound (Option.some_ne_none found).symm

theorem not_linkAt_dot (h : fs.isDir d = true) : ¬ fs.LinkAt d dot target := by
  intro hlink
  obtain ⟨x, hx, htarget⟩ := hlink
  rw [entry_dot h] at hx
  rw [← Option.some.inj hx, linkTarget_of_isDir h] at htarget
  exact absurd htarget (Option.some_ne_none target).symm

end FileSystem

end NextBSD.NameLookup
