import Mathlib.Data.List.DropRight
import NextBSD.Library.DirTree
import NextBSD.Library.PathNames

/-!
# utils.c: comparing directory paths

Two absolute paths are walked together until they differ.
-/

namespace NextBSD.Libpkg.DirPaths

open LexicalPath

/-- `while (*a == '/') a++;` -/
def skipSlashes : List Char → List Char
  | [] => []
  | c :: a => if c = '/' then skipSlashes a else c :: a

theorem skipSlashes_length_le (a : List Char) : (skipSlashes a).length ≤ a.length := by
  induction a with
  | nil => exact Nat.le_refl 0
  | cons c a ih =>
    unfold skipSlashes
    split
    · exact Nat.le_succ_of_le ih
    · exact Nat.le_refl _

/-- After the loop: there may be trailing separators on one path but not the other. -/
def nextEqual (a b : List Char) : Bool := (skipSlashes a).head? == (skipSlashes b).head?

/-- The loop of `dir_paths_equal`. -/
def equalFrom (a b : List Char) : Bool :=
  match a, b with
  | [], [] => true
  | c :: a, d :: b =>
    if c = d then
      if c = '/' then equalFrom (skipSlashes a) (skipSlashes b) else equalFrom a b
    else nextEqual (c :: a) (d :: b)
  | [], d :: b => nextEqual [] (d :: b)
  | c :: a, [] => nextEqual (c :: a) []
termination_by a.length
decreasing_by
  · exact Nat.lt_succ_of_le (skipSlashes_length_le a)
  · exact Nat.lt_succ_self a.length

/-- `dir_paths_equal`; `none` is an assertion that fails. -/
def dirPathsEqual (a b : List Char) : Option Bool :=
  if a.head? = some '/' ∧ b.head? = some '/' then some (equalFrom a b) else none

/-- The directory of `file`: what stands before its last slash. -/
def dirname (file : List Char) : List Char :=
  let upToSlash := (file.reverse.dropWhile (· ≠ '/')).reverse
  if upToSlash.length = 1 then upToSlash else upToSlash.dropLast

def pkgMatchPathsList (paths : List (List Char)) (file : List Char) : Option Bool :=
  if file.head? = some '/' ∧ file.getLast? ≠ some '/' then
    paths.foldr (fun cur found =>
      match dirPathsEqual (dirname file) cur with
      | none => none
      | some true => some true
      | some false => found) (some false)
  else none

def names (path : List Char) : List (List Char) := (components path).filter (· ≠ [])

/-- What a path continues: the rest of the name that it stands in, which may be empty, and the
names that follow. -/
def pieces (path : List Char) : List (List Char) :=
  match components path with
  | [] => []
  | w :: ws => w :: ws.filter (· ≠ [])

theorem components_cons {c : Char} (hc : c ≠ '/') (a : List Char) :
    ∃ w ws, components a = w :: ws ∧ components (c :: a) = (c :: w) :: ws := by
  have hsplit : components (c :: a) = (components a).modifyHead (List.cons c) := by
    unfold components List.splitOn
    rw [List.splitOnP_cons_eq_if_modifyHead, if_neg (by simpa using hc)]
  cases h : components a with
  | nil => exact absurd h (List.splitOn_ne_nil '/' a)
  | cons w ws => exact ⟨w, ws, rfl, by rw [hsplit, h, List.modifyHead_cons]⟩

theorem pieces_nil : pieces [] = [[]] := rfl

theorem names_slash (a : List Char) : names ('/' :: a) = names a := by
  unfold names
  rw [components_slash]
  rfl

theorem pieces_slash (a : List Char) : pieces ('/' :: a) = [] :: names a := by
  unfold pieces
  rw [components_slash]
  rfl

theorem pieces_cons {c : Char} (hc : c ≠ '/') (a : List Char) :
    ∃ w ws, pieces a = w :: ws ∧ pieces (c :: a) = (c :: w) :: ws := by
  obtain ⟨w, ws, ha, hca⟩ := components_cons hc a
  refine ⟨w, ws.filter (· ≠ []), ?_, ?_⟩
  · unfold pieces
    rw [ha]
  · unfold pieces
    rw [hca]

theorem names_cons {c : Char} (hc : c ≠ '/') (a : List Char) :
    names (c :: a) = pieces (c :: a) := by
  obtain ⟨w, ws, -, hca⟩ := components_cons hc a
  unfold names pieces
  rw [hca, List.filter_cons_of_pos (by simp)]

theorem skipSlashes_cases (a : List Char) :
    (skipSlashes a = [] ∧ names a = []) ∨
      ∃ c a', skipSlashes a = c :: a' ∧ c ≠ '/' ∧ names a = pieces (c :: a') := by
  induction a with
  | nil => exact Or.inl ⟨rfl, rfl⟩
  | cons c a ih =>
    unfold skipSlashes
    by_cases hc : c = '/'
    · rw [if_pos hc, hc, names_slash]
      exact ih
    · rw [if_neg hc]
      exact Or.inr ⟨c, a, rfl, hc, names_cons hc a⟩

/-- At the first name in which they differ, `v` goes on with the character that begins the next
name of `u`. -/
def Fork (u v : List (List Char)) : Prop :=
  ∃ (cs : List (List Char)) (w x y : List Char) (c : Char) (ds es : List (List Char)),
    u = cs ++ w :: (c :: x) :: ds ∧ v = cs ++ (w ++ c :: y) :: es

theorem Fork.ne {u v : List (List Char)} (h : Fork u v) : u ≠ v := by
  obtain ⟨cs, w, x, y, c, ds, es, rfl, rfl⟩ := h
  intro heq
  have hw := (List.cons.inj (List.append_cancel_left heq)).1
  exact absurd (List.self_eq_append_right.mp hw) (List.cons_ne_nil c y)

theorem not_fork_short (u v : List (List Char)) (h : u.length ≤ 1) : ¬ Fork u v := by
  rintro ⟨cs, w, x, y, c, ds, es, rfl, -⟩
  rw [List.length_append, List.length_cons, List.length_cons] at h
  omega

theorem not_fork_nil_right {u : List (List Char)} : ¬ Fork u [] := by
  rintro ⟨cs, w, x, y, c, ds, es, -, hv⟩
  exact absurd hv.symm (List.append_ne_nil_of_right_ne_nil cs (List.cons_ne_nil _ es))

theorem fork_cons_iff {w : List Char} {u v : List (List Char)} :
    Fork (w :: u) (w :: v) ↔ Fork u v := by
  constructor
  · rintro ⟨cs, w', x, y, c, ds, es, hu, hv⟩
    cases cs with
    | nil =>
      have hw : w' = w' ++ c :: y := (List.cons.inj hu).1.symm.trans (List.cons.inj hv).1
      exact absurd (List.self_eq_append_right.mp hw) (List.cons_ne_nil c y)
    | cons w'' cs =>
      exact ⟨cs, w', x, y, c, ds, es, (List.cons.inj hu).2, (List.cons.inj hv).2⟩
  · rintro ⟨cs, w', x, y, c, ds, es, rfl, rfl⟩
    exact ⟨w :: cs, w', x, y, c, ds, es, rfl, rfl⟩

theorem not_fork_nil_head {w : List Char} {u v : List (List Char)} (hw : w ≠ []) :
    ¬ Fork (w :: u) ([] :: v) := by
  rintro ⟨cs, w', x, y, c, ds, es, hu, hv⟩
  cases cs with
  | nil =>
    exact absurd (List.cons.inj hv).1.symm (List.append_ne_nil_of_right_ne_nil w' (by simp))
  | cons w'' cs => exact hw ((List.cons.inj hu).1.trans (List.cons.inj hv).1.symm)

theorem not_fork_singleton_nil {u : List (List Char)} : ¬ Fork u [[]] := by
  rintro ⟨cs, w, x, y, c, ds, es, -, hv⟩
  cases cs with
  | nil => exact absurd (List.cons.inj hv).1.symm (List.append_ne_nil_of_right_ne_nil w (by simp))
  | cons w' cs =>
    exact absurd (List.cons.inj hv).2.symm
      (List.append_ne_nil_of_right_ne_nil cs (List.cons_ne_nil _ es))

theorem fork_nil_left_iff {d : Char} {w : List Char} {u v : List (List Char)} :
    Fork ([] :: u) ((d :: w) :: v) ↔ ∃ x ds, u = (d :: x) :: ds := by
  constructor
  · rintro ⟨cs, w', x, y, c, ds, es, hu, hv⟩
    cases cs with
    | nil =>
      obtain ⟨hw', hu'⟩ := List.cons.inj hu
      have hd : d :: w = [] ++ c :: y := by
        rw [hw']
        exact (List.cons.inj hv).1
      rw [(List.cons.inj hd).1]
      exact ⟨x, ds, hu'⟩
    | cons w'' cs =>
      exact absurd ((List.cons.inj hv).1.trans (List.cons.inj hu).1.symm) (List.cons_ne_nil d w)
  · rintro ⟨x, ds, rfl⟩
    exact ⟨[], [], x, w, d, ds, v, rfl, rfl⟩

theorem fork_head_iff {c d : Char} {w w' : List Char} {u v : List (List Char)} :
    Fork ((c :: w) :: u) ((d :: w') :: v) ↔ c = d ∧ Fork (w :: u) (w' :: v) := by
  constructor
  · rintro ⟨cs, z, x, y, e, ds, es, hu, hv⟩
    cases cs with
    | nil =>
      obtain ⟨rfl, hu'⟩ := List.cons.inj hu
      obtain ⟨hz, -⟩ := List.cons.inj hv
      obtain ⟨hcd, hw'⟩ := List.cons.inj hz
      exact ⟨hcd.symm, [], w, x, y, e, ds, v, by rw [hu']; rfl, by rw [hw']; rfl⟩
    | cons z' cs =>
      obtain ⟨rfl, hu'⟩ := List.cons.inj hu
      obtain ⟨hz, hv'⟩ := List.cons.inj hv
      obtain ⟨hcd, hw'⟩ := List.cons.inj hz
      exact ⟨hcd.symm, w :: cs, z, x, y, e, ds, es, by rw [hu']; rfl, by rw [hw', hv']; rfl⟩
  · rintro ⟨rfl, cs, z, x, y, e, ds, es, hu, hv⟩
    cases cs with
    | nil =>
      obtain ⟨rfl, hu'⟩ := List.cons.inj hu
      obtain ⟨hw', -⟩ := List.cons.inj hv
      exact ⟨[], c :: w, x, y, e, ds, v, by rw [hu']; rfl, by rw [hw']; rfl⟩
    | cons z' cs =>
      obtain ⟨rfl, hu'⟩ := List.cons.inj hu
      obtain ⟨hw', hv'⟩ := List.cons.inj hv
      exact ⟨(c :: w) :: cs, z, x, y, e, ds, es, by rw [hu']; rfl, by rw [hw', hv']; rfl⟩

/-! ## The walk -/

theorem nextEqual_slash_iff (a : List Char) {d : Char} (hd : d ≠ '/') (b : List Char) :
    nextEqual ('/' :: a) (d :: b) = true ↔ Fork (pieces ('/' :: a)) (pieces (d :: b)) := by
  obtain ⟨w, ws, -, hdb⟩ := pieces_cons hd b
  have hskip : skipSlashes (d :: b) = d :: b := if_neg hd
  have hslash : skipSlashes ('/' :: a) = skipSlashes a := rfl
  unfold nextEqual
  rw [pieces_slash, hdb, fork_nil_left_iff, hskip, hslash, beq_iff_eq]
  rcases skipSlashes_cases a with ⟨hnil, hnames⟩ | ⟨c, a', hcons, hc, hnames⟩
  · rw [hnil, hnames]
    exact ⟨nofun, nofun⟩
  · obtain ⟨w', ws', -, hca⟩ := pieces_cons hc a'
    rw [hcons, hnames, hca]
    constructor
    · intro h
      rw [Option.some.inj h]
      exact ⟨w', ws', rfl⟩
    · rintro ⟨x, ds, h⟩
      exact congrArg some (List.cons.inj (List.cons.inj h).1).1

theorem nextEqual_comm (a b : List Char) : nextEqual a b = nextEqual b a := by
  unfold nextEqual
  rw [Bool.beq_comm]

theorem nextEqual_nil_iff (c : Char) (a : List Char) :
    nextEqual (c :: a) [] = true ↔ pieces (c :: a) = [[]] := by
  unfold nextEqual
  rw [show skipSlashes [] = [] from rfl, beq_iff_eq, List.head?_nil]
  by_cases hc : c = '/'
  · have hslash : skipSlashes (c :: a) = skipSlashes a := if_pos hc
    rw [hslash, hc, pieces_slash]
    rcases skipSlashes_cases a with ⟨hnil, hnames⟩ | ⟨d, a', hcons, hd, hnames⟩
    · rw [hnil, hnames]
      exact ⟨fun _ => rfl, fun _ => rfl⟩
    · obtain ⟨w, ws, -, hda⟩ := pieces_cons hd a'
      rw [hcons, hnames, hda]
      exact ⟨nofun, nofun⟩
  · have hskip : skipSlashes (c :: a) = c :: a := if_neg hc
    obtain ⟨w, ws, -, hca⟩ := pieces_cons hc a
    rw [hskip, hca]
    exact ⟨nofun, nofun⟩

def Alike (u v : List (List Char)) : Prop := u = v ∨ Fork u v ∨ Fork v u

theorem alike_cons_iff {w : List Char} {u v : List (List Char)} :
    Alike (w :: u) (w :: v) ↔ Alike u v := by
  unfold Alike
  rw [fork_cons_iff, fork_cons_iff, List.cons_inj_right]

theorem alike_head_iff {c d : Char} {w w' : List Char} {u v : List (List Char)} :
    Alike ((c :: w) :: u) ((d :: w') :: v) ↔ c = d ∧ Alike (w :: u) (w' :: v) := by
  unfold Alike
  rw [fork_head_iff, fork_head_iff, List.cons.injEq, List.cons.injEq, List.cons.injEq]
  constructor
  · rintro (⟨⟨hcd, hw⟩, hu⟩ | ⟨hcd, h⟩ | ⟨hdc, h⟩)
    · exact ⟨hcd, Or.inl ⟨hw, hu⟩⟩
    · exact ⟨hcd, Or.inr (Or.inl h)⟩
    · exact ⟨hdc.symm, Or.inr (Or.inr h)⟩
  · rintro ⟨hcd, ⟨hw, hu⟩ | h | h⟩
    · exact Or.inl ⟨⟨hcd, hw⟩, hu⟩
    · exact Or.inr (Or.inl ⟨hcd, h⟩)
    · exact Or.inr (Or.inr ⟨hcd.symm, h⟩)

theorem alike_skipSlashes_iff (a b : List Char) :
    Alike (pieces (skipSlashes a)) (pieces (skipSlashes b)) ↔ Alike (names a) (names b) := by
  have hshort : ∀ c w ws, ¬ Alike [[]] ((c :: w) :: ws) := by
    rintro c w ws (h | h | h)
    · exact absurd (List.cons.inj h).1.symm (List.cons_ne_nil c w)
    · exact not_fork_short [[]] _ (Nat.le_refl 1) h
    · exact not_fork_singleton_nil h
  have hempty : ∀ c w ws, ¬ Alike [] ((c :: w) :: ws) := by
    rintro c w ws (h | h | h)
    · exact absurd h.symm (List.cons_ne_nil _ ws)
    · exact not_fork_short [] _ (Nat.zero_le 1) h
    · exact not_fork_nil_right h
  have hcomm : ∀ u v, Alike u v → Alike v u := by
    rintro u v (h | h | h)
    · exact Or.inl h.symm
    · exact Or.inr (Or.inr h)
    · exact Or.inr (Or.inl h)
  rcases skipSlashes_cases a with ⟨hnilA, hnamesA⟩ | ⟨c, a', hconsA, hc, hnamesA⟩ <;>
    rcases skipSlashes_cases b with ⟨hnilB, hnamesB⟩ | ⟨d, b', hconsB, hd, hnamesB⟩
  · rw [hnilA, hnilB, hnamesA, hnamesB]
    exact ⟨fun _ => Or.inl rfl, fun _ => Or.inl rfl⟩
  · obtain ⟨w, ws, -, hdb⟩ := pieces_cons hd b'
    rw [hnilA, hconsB, hnamesA, hnamesB, hdb]
    exact ⟨fun h => absurd h (hshort d w ws), fun h => absurd h (hempty d w ws)⟩
  · obtain ⟨w, ws, -, hca⟩ := pieces_cons hc a'
    rw [hnilB, hconsA, hnamesA, hnamesB, hca]
    exact ⟨fun h => absurd (hcomm _ _ h) (hshort c w ws),
      fun h => absurd (hcomm _ _ h) (hempty c w ws)⟩
  · rw [hconsA, hconsB, hnamesA, hnamesB]

theorem equalFrom_iff (a b : List Char) : equalFrom a b = true ↔ Alike (pieces a) (pieces b) := by
  fun_induction equalFrom a b with
  | case1 => exact ⟨fun _ => Or.inl rfl, fun _ => rfl⟩
  | case2 a b ih =>
    rw [pieces_slash, pieces_slash, alike_cons_iff, ih, alike_skipSlashes_iff]
  | case3 a c b hc ih =>
    obtain ⟨w, ws, ha, hca⟩ := pieces_cons hc a
    obtain ⟨w', ws', hb, hcb⟩ := pieces_cons hc b
    rw [hca, hcb, alike_head_iff, ih, ha, hb]
    exact ⟨fun h => ⟨rfl, h⟩, fun h => h.2⟩
  | case4 c a d b hcd =>
    by_cases hc : c = '/'
    · have hd : d ≠ '/' := fun hd => hcd (hc.trans hd.symm)
      obtain ⟨w, ws, -, hdb⟩ := pieces_cons hd b
      rw [hc, nextEqual_slash_iff a hd b]
      refine ⟨fun h => Or.inr (Or.inl h), ?_⟩
      rw [pieces_slash, hdb]
      rintro (h | h | h)
      · exact absurd (List.cons.inj h).1.symm (List.cons_ne_nil d w)
      · exact h
      · exact absurd h (not_fork_nil_head (List.cons_ne_nil d w))
    · obtain ⟨w, ws, -, hca⟩ := pieces_cons hc a
      by_cases hd : d = '/'
      · rw [hd, nextEqual_comm, nextEqual_slash_iff b hc a]
        refine ⟨fun h => Or.inr (Or.inr h), ?_⟩
        rw [pieces_slash, hca]
        rintro (h | h | h)
        · exact absurd (List.cons.inj h).1 (List.cons_ne_nil c w)
        · exact absurd h (not_fork_nil_head (List.cons_ne_nil c w))
        · exact h
      · obtain ⟨w', ws', -, hdb⟩ := pieces_cons hd b
        rw [hca, hdb, alike_head_iff]
        unfold nextEqual skipSlashes
        rw [if_neg hc, if_neg hd, beq_iff_eq]
        exact ⟨fun h => absurd (Option.some.inj h) hcd, fun h => absurd h.1 hcd⟩
  | case5 d b =>
    rw [nextEqual_comm, nextEqual_nil_iff, pieces_nil]
    constructor
    · exact fun h => Or.inl h.symm
    · rintro (h | h | h)
      · exact h.symm
      · exact absurd h (not_fork_short [[]] _ (Nat.le_refl 1))
      · exact absurd h not_fork_singleton_nil
  | case6 c a =>
    rw [nextEqual_nil_iff, pieces_nil]
    constructor
    · exact fun h => Or.inl h
    · rintro (h | h | h)
      · exact h
      · exact absurd h not_fork_singleton_nil
      · exact absurd h (not_fork_short [[]] _ (Nat.le_refl 1))

theorem dirPathsEqual_alike (a b : List Char) :
    dirPathsEqual ('/' :: a) ('/' :: b) = some true ↔
      Alike (names ('/' :: a)) (names ('/' :: b)) := by
  have hrun : dirPathsEqual ('/' :: a) ('/' :: b) = some (equalFrom ('/' :: a) ('/' :: b)) :=
    if_pos ⟨rfl, rfl⟩
  rw [hrun, Option.some_inj, equalFrom_iff, pieces_slash, pieces_slash, alike_cons_iff, names_slash,
    names_slash]

/-- The answer is right for two absolute paths just when neither forks off the other. -/
theorem dirPathsEqual_iff (a b : List Char) :
    (dirPathsEqual ('/' :: a) ('/' :: b) = some true ↔ names ('/' :: a) = names ('/' :: b)) ↔
      ¬ Fork (names ('/' :: a)) (names ('/' :: b)) ∧
        ¬ Fork (names ('/' :: b)) (names ('/' :: a)) := by
  rw [dirPathsEqual_alike]
  constructor
  · intro h
    exact ⟨fun hfork => hfork.ne (h.mp (Or.inr (Or.inl hfork))),
      fun hfork => hfork.ne (h.mp (Or.inr (Or.inr hfork))).symm⟩
  · rintro ⟨hab, hba⟩
    constructor
    · rintro (h | h | h)
      · exact h
      · exact absurd h hab
      · exact absurd h hba
    · exact fun h => Or.inl h

/-- `/a/b` passes for `/ab`. -/
theorem dirPathsEqual_fork : ¬ ∀ a b, dirPathsEqual ('/' :: a) ('/' :: b) = some true ↔
    names ('/' :: a) = names ('/' :: b) := by
  intro h
  have hequal : dirPathsEqual ['/', 'a', '/', 'b'] ['/', 'a', 'b'] = some true := by
    unfold dirPathsEqual
    rw [if_pos (by decide), equalFrom, if_pos rfl, if_pos rfl]
    show some (equalFrom ['a', '/', 'b'] ['a', 'b']) = some true
    rw [equalFrom, if_pos rfl, if_neg (by decide), equalFrom, if_neg (by decide)]
    decide
  exact absurd ((h ['a', '/', 'b'] ['a', 'b']).mp hequal) (by decide)

end NextBSD.Libpkg.DirPaths

/-!
## Deleting the files and directories of a package

`pkg_delete.c`.  The root directory holds a tree without links.  The paths of a package are those of
`pkg_absolutepath`, so they fit in a buffer of `MAXPATHLEN` bytes.  File flags are left out.
-/

namespace NextBSD.Libpkg.DeleteDirs

open DirTree DirPaths

/-- What `pkg_delete.c` reads of a package. -/
structure Package where
  pkgPrefix : List Char
  files : List (List Char)
  dirs : List (List Char)

/-- The tree below `rootfd` and `dir_to_del`. -/
structure State where
  tree : FileTree (List Char)
  dirToDel : List (List Char)

/-- `while (len > 0 && s[len - 1] == '/') len--;` -/
def trimSlashes (s : List Char) : List Char := s.rdropWhile (· = '/')

/-- What remains with a NUL after the byte that `strrchr` finds. -/
def throughSlash (s : List Char) : Option (List Char) :=
  if '/' ∈ s then some (s.rdropWhile (· ≠ '/')) else none

def endSlash (path : List Char) : List Char :=
  if path ≠ [] ∧ path.getLast? ≠ some '/' then path ++ ['/'] else path

/-- The loop over `dir_to_del`. -/
def mergeDir (path : List Char) : List (List Char) → List (List Char)
  | [] => [path]
  | d :: rest =>
    if path.isPrefixOf d then d :: rest
    else if d.isPrefixOf path then path :: rest
    else d :: mergeDir path rest

/-- `pkg_add_dir_to_del`.  It is `none` where the pointer of `strrchr` is null. -/
def pkgAddDirToDel (dirToDel : List (List Char)) (file : Option (List Char)) (dir : List Char) :
    Option (List (List Char)) :=
  match file with
  | some file => (throughSlash file).map (fun path => mergeDir (endSlash path) dirToDel)
  | none => some (mergeDir (endSlash dir) dirToDel)

def inPrefix (pkgPrefix path : List Char) : Bool :=
  (trimSlashes pkgPrefix.tail ++ ['/']).isPrefixOf path

def pkgDeleteFile (pkgPrefix : List Char) (st : State) (file : List Char) : Option State :=
  let path := file.tail
  match st.tree.unlink (names path) with
  | none => some st
  | some tree =>
    if inPrefix pkgPrefix path then
      (pkgAddDirToDel st.dirToDel (some path) []).map
        (fun dirToDel => { tree := tree, dirToDel := dirToDel })
    else some { st with tree := tree }

def pkgDeleteDir (pkgPrefix : List Char) (dirToDel : List (List Char)) (dir : List Char) :
    Option (List (List Char)) :=
  let path := dir.tail
  if inPrefix pkgPrefix path then pkgAddDirToDel dirToDel none path
  else some (dirToDel ++ [path])

/-- The end of `rmdir_p`: the directory with which it goes on. -/
def nextDir (prefixR dir : List Char) : Option (List Char) :=
  if prefixR.isPrefixOf dir then
    match throughSlash dir with
    | none => none
    | some upto => if upto.dropLast = [] then none else throughSlash upto.dropLast
  else none

theorem throughSlash_length {s upto : List Char} (h : throughSlash s = some upto) :
    upto.length ≤ s.length := by
  unfold throughSlash at h
  by_cases hs : '/' ∈ s
  · rw [if_pos hs] at h
    rw [← Option.some.inj h]
    exact (List.rdropWhile_prefix _ _).length_le
  · rw [if_neg hs] at h
    exact absurd h (Option.some_ne_none upto).symm

theorem nextDir_length {prefixR dir up : List Char} (h : nextDir prefixR dir = some up) :
    up.length < dir.length := by
  unfold nextDir at h
  by_cases hpre : prefixR.isPrefixOf dir = true
  · rw [if_pos hpre] at h
    cases hupto : throughSlash dir with
    | none =>
      rw [hupto] at h
      exact absurd h (Option.some_ne_none up).symm
    | some upto =>
      rw [hupto] at h
      simp only at h
      by_cases hnil : upto.dropLast = []
      · rw [if_pos hnil] at h
        exact absurd h (Option.some_ne_none up).symm
      · rw [if_neg hnil] at h
        have hle := throughSlash_length hupto
        have hlast := throughSlash_length h
        have hpos := List.length_pos_iff.mpr hnil
        rw [List.length_dropLast] at hlast hpos
        omega
  · rw [if_neg hpre] at h
    exact absurd h (Option.some_ne_none up).symm

/-- `rmdir_p`.  `owned` are the directories of other packages, of which `pkgdb_is_dir_used` counts
those with that path. -/
def rmdirP (owned : List (List Char)) (prefixR : List Char) (tree : FileTree (List Char))
    (dir : List Char) : FileTree (List Char) :=
  let fullpath := trimSlashes ('/' :: dir)
  if fullpath ∈ owned then tree
  else if prefixR = fullpath.tail then tree
  else
    match tree.rmdir (names dir) with
    | .error errno =>
      if errno = .enoent then
        match _ : nextDir prefixR dir with
        | none => tree
        | some up => rmdirP owned prefixR tree up
      else tree
    | .ok tree =>
      match _ : nextDir prefixR dir with
      | none => tree
      | some up => rmdirP owned prefixR tree up
termination_by dir.length
decreasing_by all_goals exact nextDir_length ‹_›

theorem rmdirP_eq (owned : List (List Char)) (prefixR : List Char) (tree : FileTree (List Char))
    (dir : List Char) : rmdirP owned prefixR tree dir =
      if trimSlashes ('/' :: dir) ∈ owned then tree
      else if prefixR = (trimSlashes ('/' :: dir)).tail then tree
      else
        match tree.rmdir (names dir) with
        | .error errno =>
          if errno = .enoent then (nextDir prefixR dir).elim tree (rmdirP owned prefixR tree)
          else tree
        | .ok tree => (nextDir prefixR dir).elim tree (rmdirP owned prefixR tree) := by
  rw [rmdirP]
  have hgo : ∀ tree : FileTree (List Char), (match _ : nextDir prefixR dir with
      | none => tree
      | some up => rmdirP owned prefixR tree up) =
        (nextDir prefixR dir).elim tree (rmdirP owned prefixR tree) := by
    intro tree
    split
    · rename_i hnext
      rw [hnext]
      rfl
    · rename_i up hnext
      rw [hnext]
      rfl
  simp only [hgo]

def pkgEffectiveRmdir (owned : List (List Char)) (pkgPrefix : List Char) (st : State) :
    FileTree (List Char) :=
  st.dirToDel.foldl (rmdirP owned pkgPrefix.tail) st.tree

/-- `pkg_delete_file` for each file. -/
def pkgDeleteFiles (pkg : Package) (tree : FileTree (List Char)) : Option State :=
  pkg.files.foldlM (pkgDeleteFile pkg.pkgPrefix) { tree := tree, dirToDel := [] }

/-- `pkg_delete_dirs`; `new` are the directories of the package that replaces this one. -/
def pkgDeleteDirs (owned : List (List Char)) (pkg : Package) (new : Option (List (List Char)))
    (st : State) : Option (FileTree (List Char)) :=
  let dirs := pkg.dirs.reverse.filter (fun dir => !(new.any (fun new => new.contains dir)))
  (dirs.foldlM (pkgDeleteDir pkg.pkgPrefix) st.dirToDel).map
    (fun dirToDel => pkgEffectiveRmdir owned pkg.pkgPrefix { st with dirToDel := dirToDel })

end NextBSD.Libpkg.DeleteDirs
