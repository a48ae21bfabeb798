import NextBSD.Libpkg.DeleteDirs

/-!
# Directories after a deinstall

A prefix that is a path in its usual form is followed by the walks of `rmdir_p`, which then leave no
directory of the package empty.
-/

namespace NextBSD.Libpkg.DeleteDirs

open DirTree DirPaths LexicalPath PathNames

abbrev Path := List (List Char)

def pathOf (p : Path) : List Char := '/' :: pathName p

def AllNames (p : Path) : Prop := ∀ n ∈ p, IsName n

def keeps (owned : List Path) (base : Path) (p : Path) : Bool := p ∈ owned ∨ p = base

/-- A directory entry, the parent of a file that is deleted or an ancestor of one of these, strictly
below the prefix. -/
def Relevant (tree : FileTree (List Char)) (base : Path) (files dirs : List Path) (d : Path) :
    Prop :=
  base <+: d ∧ d ≠ base ∧
    ((∃ r ∈ dirs, d <+: r) ∨ ∃ f ∈ files, f ∈ tree.files ∧ d <+: f.dropLast)

/-- After a deinstall only directories have been removed that were empty at that moment, that no
other package owns and that are not the prefix, and no relevant directory is left empty. -/
def CleanedUp (pkgPrefix : List Char) (tree : FileTree (List Char)) (files dirs owned : List Path) :
    Prop :=
  let pkg : Package :=
    { pkgPrefix := pkgPrefix, files := files.map pathOf, dirs := dirs.map pathOf }
  ∃ st final, pkgDeleteFiles pkg tree = some st ∧
    pkgDeleteDirs (owned.map pathOf) pkg none st = some final ∧
    FileTree.Prunes (keeps owned (names pkgPrefix)) st.tree final ∧
    ∀ d, Relevant tree (names pkgPrefix) files dirs d →
      ¬ FileTree.Leftover (keeps owned (names pkgPrefix)) final d

/-- The files and directories of a package are strictly below its prefix, and the directories of
other packages exist. -/
structure Installed (base : Path) (tree : FileTree (List Char)) (files dirs owned : List Path) :
    Prop where
  wellFormed : tree.WellFormed
  files_below : ∀ f ∈ files, AllNames f ∧ base <+: f ∧ f ≠ base
  dirs_below : ∀ d ∈ dirs, AllNames d ∧ base <+: d ∧ d ≠ base
  owned_mem : ∀ o ∈ owned, AllNames o ∧ o ∈ tree.dirs

variable {p q : Path} {n : List Char}

theorem AllNames.of_prefix (h : AllNames q) (hpre : p <+: q) : AllNames p :=
  fun n hn => h n (hpre.subset hn)

theorem names_slashed (h : AllNames p) : names (slashed p) = p := by
  induction p with
  | nil => rfl
  | cons n p ih =>
    have hn := h n List.mem_cons_self
    have hrest := ih (fun m hm => h m (List.mem_cons_of_mem n hm))
    unfold names at hrest ⊢
    rw [slashed_cons, components_append_slash, components_of_not_mem hn.no_slash,
      List.filter_append, hrest, List.filter_cons_of_pos (by simpa using hn.ne_nil)]
    rfl

theorem names_append_slash (s : List Char) : names (s ++ ['/']) = names s := by
  unfold names
  rw [components_append_slash, List.filter_append]
  exact List.append_nil _

theorem names_pathName (h : AllNames p) : names (pathName p) = p := by
  by_cases hnil : p = []
  · rw [hnil]
    rfl
  · rw [← names_append_slash, pathName_slash hnil, names_slashed h]

theorem names_pathOf (h : AllNames p) : names (pathOf p) = p := by
  unfold pathOf
  rw [names_slash, names_pathName h]

theorem trimSlashes_concat (s : List Char) (hn : IsName n) : trimSlashes (s ++ n) = s ++ n := by
  unfold trimSlashes
  rw [List.rdropWhile_eq_self_iff]
  intro _ hlast
  obtain ⟨m, c, rfl⟩ := (List.eq_nil_or_concat' n).resolve_left hn.ne_nil
  apply hn.no_slash
  simp only [← List.append_assoc, List.getLast_append_singleton, decide_eq_true_eq] at hlast
  rw [hlast]
  exact List.mem_append_right _ List.mem_cons_self

theorem trimSlashes_append_slash (s : List Char) : trimSlashes (s ++ ['/']) = trimSlashes s := by
  unfold trimSlashes
  exact List.rdropWhile_concat_pos _ _ _ (by simp)

theorem trimSlashes_pathName (h : AllNames p) : trimSlashes (pathName p) = pathName p := by
  by_cases hnil : p = []
  · rw [hnil]
    rfl
  · obtain ⟨q, n, rfl⟩ := (List.eq_nil_or_concat' p).resolve_left hnil
    rw [pathName_concat]
    exact trimSlashes_concat _ (h n (List.mem_append_right _ List.mem_cons_self))

theorem trimSlashes_slashed (h : AllNames p) (hnil : p ≠ []) :
    trimSlashes ('/' :: slashed p) = pathOf p := by
  obtain ⟨q, n, rfl⟩ := (List.eq_nil_or_concat' p).resolve_left hnil
  unfold pathOf
  rw [slashed_concat, pathName_concat, ← List.cons_append, ← List.cons_append,
    trimSlashes_append_slash]
  exact trimSlashes_concat ('/' :: slashed q) (h n (List.mem_append_right _ List.mem_cons_self))

theorem throughSlash_slash (s : List Char) : throughSlash (s ++ ['/']) = some (s ++ ['/']) := by
  unfold throughSlash
  rw [if_pos (by simp)]
  exact congrArg some (List.rdropWhile_concat_neg _ _ _ (by simp))

theorem throughSlash_name (hq : q ≠ []) (hn : '/' ∉ n) :
    throughSlash (slashed q ++ n) = some (slashed q) := by
  obtain ⟨q, m, rfl⟩ := (List.eq_nil_or_concat' q).resolve_left hq
  unfold throughSlash
  rw [slashed_concat, if_pos (by simp)]
  apply congrArg some
  induction n using List.reverseRecOn with
  | nil => rw [List.append_nil, List.rdropWhile_concat_neg _ _ _ (by simp)]
  | append_singleton n c ih =>
    have hc : c ≠ '/' := by
      rintro rfl
      exact hn (List.mem_append_right _ List.mem_cons_self)
    rw [← List.append_assoc, List.rdropWhile_concat_pos _ _ _ (by simpa using hc)]
    exact ih (fun hmem => hn (List.mem_append_left _ hmem))

theorem endSlash_slashed (p : Path) : endSlash (slashed p) = slashed p := by
  unfold endSlash
  by_cases hnil : p = []
  · rw [hnil]
    rfl
  · obtain ⟨q, n, rfl⟩ := (List.eq_nil_or_concat' p).resolve_left hnil
    rw [slashed_concat, if_neg (by simp)]

theorem getLast?_pathName (h : AllNames p) : (pathName p).getLast? ≠ some '/' := by
  intro hlast
  have htrim := trimSlashes_pathName h
  obtain ⟨s, hs⟩ := List.getLast?_eq_some_iff.mp hlast
  rw [hs, trimSlashes_append_slash] at htrim
  have hlength := (List.rdropWhile_prefix (· = '/') s).length_le
  unfold trimSlashes at htrim
  rw [htrim, List.length_append, List.length_singleton] at hlength
  omega

theorem endSlash_pathName (h : AllNames p) (hnil : p ≠ []) : endSlash (pathName p) = slashed p := by
  unfold endSlash
  rw [if_pos ⟨pathName_ne_nil h hnil, getLast?_pathName h⟩, pathName_slash hnil]

/-- `dir_to_del` on paths. -/
def mergePath (p : Path) : List Path → List Path
  | [] => [p]
  | q :: rest =>
    if p.isPrefixOf q then q :: rest
    else if q.isPrefixOf p then p :: rest
    else q :: mergePath p rest

theorem isPrefixOf_slashed (hp : AllNames p) (hq : AllNames q) :
    (slashed p).isPrefixOf (slashed q) = p.isPrefixOf q := by
  rw [Bool.eq_iff_iff, List.isPrefixOf_iff_prefix, List.isPrefixOf_iff_prefix]
  exact slashed_prefix_iff hp hq

theorem mergeDir_slashed {queue : List Path} (hp : AllNames p) (hqueue : ∀ q ∈ queue, AllNames q) :
    mergeDir (slashed p) (queue.map slashed) = (mergePath p queue).map slashed := by
  induction queue with
  | nil => rfl
  | cons q queue ih =>
    rw [List.forall_mem_cons] at hqueue
    rw [List.map_cons, mergeDir, mergePath, isPrefixOf_slashed hp hqueue.1,
      isPrefixOf_slashed hqueue.1 hp, ih hqueue.2]
    split
    · rfl
    · split
      · rfl
      · rfl

theorem mergePath_covers (p : Path) (queue : List Path) :
    (∀ q ∈ mergePath p queue, q = p ∨ q ∈ queue) ∧
      ∀ d, (d <+: p ∨ ∃ q ∈ queue, d <+: q) → ∃ q ∈ mergePath p queue, d <+: q := by
  induction queue with
  | nil =>
    refine ⟨fun q hq => Or.inl (List.mem_singleton.mp hq), ?_⟩
    rintro d (hd | ⟨q, hq, -⟩)
    · exact ⟨p, List.mem_cons_self, hd⟩
    · exact absurd hq List.not_mem_nil
  | cons q queue ih =>
    rw [mergePath]
    by_cases hpq : p.isPrefixOf q = true
    · rw [if_pos hpq]
      refine ⟨fun e he => Or.inr he, ?_⟩
      rintro d (hd | hd)
      · exact ⟨q, List.mem_cons_self, hd.trans (List.isPrefixOf_iff_prefix.mp hpq)⟩
      · exact hd
    · rw [if_neg hpq]
      by_cases hqp : q.isPrefixOf p = true
      · rw [if_pos hqp]
        refine ⟨fun e he => (List.mem_cons.mp he).imp id (List.mem_cons_of_mem q), ?_⟩
        rintro d (hd | ⟨e, he, hd⟩)
        · exact ⟨p, List.mem_cons_self, hd⟩
        · rcases List.mem_cons.mp he with rfl | he
          · exact ⟨p, List.mem_cons_self, hd.trans (List.isPrefixOf_iff_prefix.mp hqp)⟩
          · exact ⟨e, List.mem_cons_of_mem p he, hd⟩
      · rw [if_neg hqp]
        refine ⟨fun e he => ?_, ?_⟩
        · rcases List.mem_cons.mp he with rfl | he
          · exact Or.inr List.mem_cons_self
          · exact (ih.1 e he).imp id (List.mem_cons_of_mem q)
        · have hrest : ∀ d, (d <+: p ∨ ∃ e ∈ queue, d <+: e) →
              ∃ e ∈ q :: mergePath p queue, d <+: e := by
            intro d hd
            obtain ⟨e, he, hde⟩ := ih.2 d hd
            exact ⟨e, List.mem_cons_of_mem q he, hde⟩
          rintro d (hd | ⟨e, he, hd⟩)
          · exact hrest d (Or.inl hd)
          · rcases List.mem_cons.mp he with rfl | he
            · exact ⟨e, List.mem_cons_self, hd⟩
            · exact hrest d (Or.inr ⟨e, he, hd⟩)

structure Covers (base : Path) (covered : Path → Prop) (dirToDel : List (List Char))
    (queue : List Path) : Prop where
  eq_map : dirToDel = queue.map slashed
  below : ∀ q ∈ queue, AllNames q ∧ base <+: q
  covered : ∀ d, covered d → ∃ q ∈ queue, d <+: q

theorem Covers.merge {base : Path} {covered : Path → Prop} {dirToDel : List (List Char)}
    {queue : List Path} (h : Covers base covered dirToDel queue) (hp : AllNames p)
    (hbase : base <+: p) :
    Covers base (fun d => covered d ∨ d <+: p) (mergeDir (slashed p) dirToDel)
      (mergePath p queue) := by
  have hmerge := mergePath_covers p queue
  constructor
  · rw [h.eq_map]
    exact mergeDir_slashed hp (fun q hq => (h.below q hq).1)
  · intro q hq
    rcases hmerge.1 q hq with rfl | hq
    · exact ⟨hp, hbase⟩
    · exact h.below q hq
  · rintro d (hd | hd)
    · exact hmerge.2 d (Or.inr (h.covered d hd))
    · exact hmerge.2 d (Or.inl hd)

section

variable {base : Path} {pkgPrefix : List Char}

theorem inPrefix_pathName (htrim : trimSlashes pkgPrefix.tail = pathName base) (hnil : base ≠ [])
    (hpre : base <+: p) (hne : p ≠ base) :
    inPrefix pkgPrefix (pathName p) = true := by
  obtain ⟨r, rfl⟩ := hpre
  have hr : r ≠ [] := by
    rintro rfl
    exact hne (List.append_nil base)
  unfold inPrefix
  rw [htrim, pathName_slash hnil, pathName_append base hr, List.isPrefixOf_iff_prefix]
  exact List.prefix_append _ _

theorem pkgAddDirToDel_file (h : AllNames p) (hparent : p.dropLast ≠ [])
    (dirToDel : List (List Char)) :
    pkgAddDirToDel dirToDel (some (pathName p)) [] =
      some (mergeDir (slashed p.dropLast) dirToDel) := by
  have hnil : p ≠ [] := by
    rintro rfl
    exact hparent rfl
  obtain ⟨q, n, rfl⟩ := (List.eq_nil_or_concat' p).resolve_left hnil
  rw [List.dropLast_concat] at hparent ⊢
  unfold pkgAddDirToDel
  simp only
  rw [pathName_concat, throughSlash_name hparent
    (h n (List.mem_append_right _ List.mem_cons_self)).no_slash, Option.map_some, endSlash_slashed]

theorem nextDir_slashed (h : AllNames p) (hnil : base ≠ []) (hpre : base <+: p) (hne : p ≠ base) :
    nextDir (pathName base) (slashed p) = some (slashed p.dropLast) := by
  have hparent := FileTree.prefix_dropLast hpre (Ne.symm hne)
  have hpnil : p.dropLast ≠ [] := by
    intro heq
    rw [heq] at hparent
    exact hnil (List.prefix_nil.mp hparent.2)
  obtain ⟨r, rfl⟩ := hpre
  have hr : r ≠ [] := by
    rintro rfl
    exact hne (List.append_nil base)
  have hbelow : (pathName base).isPrefixOf (slashed (base ++ r)) = true := by
    rw [List.isPrefixOf_iff_prefix, slashed_append, ← pathName_slash hnil, List.append_assoc]
    exact List.prefix_append _ _
  unfold nextDir
  rw [if_pos hbelow]
  generalize base ++ r = p at *
  obtain ⟨q, n, rfl⟩ := (List.eq_nil_or_concat' p).resolve_left hparent.1
  have hn := h n (List.mem_append_right _ List.mem_cons_self)
  rw [List.dropLast_concat] at hpnil ⊢
  rw [slashed_concat, throughSlash_slash]
  simp only [List.dropLast_concat]
  rw [if_neg (List.append_ne_nil_of_right_ne_nil _ hn.ne_nil)]
  exact throughSlash_name hpnil hn.no_slash

theorem mem_map_pathOf {owned : List Path} (howned : ∀ o ∈ owned, AllNames o) (h : AllNames p) :
    pathOf p ∈ owned.map pathOf ↔ p ∈ owned := by
  constructor
  · intro hmem
    obtain ⟨o, ho, heq⟩ := List.mem_map.mp hmem
    have hsame := pathName_inj (howned o ho) h (List.cons.inj heq).2
    exact hsame ▸ ho
  · exact List.mem_map_of_mem

theorem rmdirP_slashed {owned : List Path} (howned : ∀ o ∈ owned, AllNames o)
    (hbase : AllNames base) (hnil : base ≠ []) (tree : FileTree (List Char)) (h : AllNames p)
    (hpre : base <+: p) :
    rmdirP (owned.map pathOf) (pathName base) tree (slashed p) =
      FileTree.pruneUp (keeps owned base) tree p := by
  induction hn : p.length using Nat.strong_induction_on generalizing p tree with
  | _ k ih =>
    have hpnil : p ≠ [] := by
      rintro rfl
      exact hnil (List.prefix_nil.mp hpre)
    rw [rmdirP_eq, FileTree.pruneUp, trimSlashes_slashed h hpnil, names_slashed h]
    have htail : (pathOf p).tail = pathName p := rfl
    rw [htail]
    by_cases hown : p ∈ owned
    · have hkeep : keeps owned base p = true := decide_eq_true (Or.inl hown)
      rw [if_pos ((mem_map_pathOf howned h).mpr hown), if_pos hkeep]
    · rw [if_neg (fun hmem => hown ((mem_map_pathOf howned h).mp hmem))]
      by_cases heq : p = base
      · have hkeep : keeps owned base p = true := decide_eq_true (Or.inr heq)
        rw [if_pos (by rw [heq]), if_pos hkeep]
      · have hfree : ¬ keeps owned base p = true := by
          unfold keeps
          rw [decide_eq_true_eq, not_or]
          exact ⟨hown, heq⟩
        rw [if_neg (fun hname => heq (pathName_inj hbase h hname).symm), if_neg hfree,
          nextDir_slashed h hnil hpre heq]
        have hparent := FileTree.prefix_dropLast hpre (Ne.symm heq)
        have hup : ∀ tree, rmdirP (owned.map pathOf) (pathName base) tree (slashed p.dropLast) =
            FileTree.pruneUp (keeps owned base) tree p.dropLast := by
          intro tree
          apply ih p.dropLast.length _ tree (h.of_prefix (List.dropLast_prefix p)) hparent.2 rfl
          have hpos := List.length_pos_iff.mpr hpnil
          rw [List.length_dropLast]
          omega
        simp only [Option.elim_some, hup]
        cases tree.rmdir p with
        | ok tree' =>
          show _ = if _ : p = [] then tree'
            else FileTree.pruneUp (keeps owned base) tree' p.dropLast
          rw [dif_neg hpnil]
        | error errno =>
          cases errno with
          | enoent =>
            show _ = if _ : p = [] then tree
              else FileTree.pruneUp (keeps owned base) tree p.dropLast
            rw [dif_neg hpnil]
            rfl
          | enotdir => rfl
          | enotempty => rfl
          | ebusy => rfl

theorem foldl_rmdirP_slashed {owned : List Path} (howned : ∀ o ∈ owned, AllNames o)
    (hbase : AllNames base) (hnil : base ≠ []) (tree : FileTree (List Char)) {queue : List Path}
    (hqueue : ∀ q ∈ queue, AllNames q ∧ base <+: q) :
    (queue.map slashed).foldl (rmdirP (owned.map pathOf) (pathName base)) tree =
      queue.foldl (FileTree.pruneUp (keeps owned base)) tree := by
  induction queue generalizing tree with
  | nil => rfl
  | cons q queue ih =>
    rw [List.forall_mem_cons] at hqueue
    rw [List.map_cons, List.foldl_cons, List.foldl_cons,
      rmdirP_slashed howned hbase hnil tree hqueue.1.1 hqueue.1.2]
    exact ih _ hqueue.2

/-! ## The phases -/

theorem pkgDeleteFile_covers (htrim : trimSlashes pkgPrefix.tail = pathName base)
    (hnil : base ≠ []) {st : State} {covered : Path → Prop} {queue : List Path}
    (hcovers : Covers base covered st.dirToDel queue) (hwf : st.tree.WellFormed) {f : Path}
    (hf : AllNames f) (hpre : base <+: f) (hne : f ≠ base) :
    ∃ st' queue', pkgDeleteFile pkgPrefix st (pathOf f) = some st' ∧ st'.tree.WellFormed ∧
      st'.tree.dirs = st.tree.dirs ∧ (∀ g ∈ st.tree.files, g = f ∨ g ∈ st'.tree.files) ∧
      Covers base (fun d => covered d ∨ (f ∈ st.tree.files ∧ d <+: f.dropLast)) st'.dirToDel
        queue' := by
  have htail : (pathOf f).tail = pathName f := rfl
  unfold pkgDeleteFile
  simp only
  rw [htail, names_pathName hf]
  cases hunlink : st.tree.unlink f with
  | none =>
    refine ⟨st, queue, rfl, hwf, rfl, fun g hg => Or.inr hg, hcovers.eq_map, hcovers.below, ?_⟩
    rintro d (hd | ⟨hmem, -⟩)
    · exact hcovers.covered d hd
    · unfold FileTree.unlink at hunlink
      rw [if_pos hmem] at hunlink
      exact absurd hunlink (Option.some_ne_none _)
  | some tree =>
    have hparent := FileTree.prefix_dropLast hpre (Ne.symm hne)
    have hparentNil : f.dropLast ≠ [] := by
      intro heq
      rw [heq] at hparent
      exact hnil (List.prefix_nil.mp hparent.2)
    simp only
    rw [inPrefix_pathName htrim hnil hpre hne, if_pos rfl,
      pkgAddDirToDel_file hf hparentNil, Option.map_some]
    have htree := hwf.unlink hunlink
    have hmerge := hcovers.merge (hf.of_prefix (List.dropLast_prefix f)) hparent.2
    unfold FileTree.unlink at hunlink
    by_cases hmem : f ∈ st.tree.files
    · rw [if_pos hmem] at hunlink
      refine ⟨_, _, rfl, htree, ?_, ?_, hmerge.eq_map, hmerge.below, ?_⟩
      · rw [← Option.some.inj hunlink]
      · intro g hg
        rw [← Option.some.inj hunlink]
        by_cases hgf : g = f
        · exact Or.inl hgf
        · exact Or.inr (List.mem_filter.mpr ⟨hg, decide_eq_true hgf⟩)
      · intro d hd
        exact hmerge.covered d (hd.imp id And.right)
    · rw [if_neg hmem] at hunlink
      exact absurd hunlink (Option.some_ne_none tree).symm

theorem pkgDeleteFiles_covers (htrim : trimSlashes pkgPrefix.tail = pathName base)
    (hnil : base ≠ []) {files : List Path} (st : State) {covered : Path → Prop} {queue : List Path}
    (hcovers : Covers base covered st.dirToDel queue) (hwf : st.tree.WellFormed)
    (hfiles : ∀ f ∈ files, AllNames f ∧ base <+: f ∧ f ≠ base) :
    ∃ st' queue', (files.map pathOf).foldlM (pkgDeleteFile pkgPrefix) st = some st' ∧
      st'.tree.WellFormed ∧ st'.tree.dirs = st.tree.dirs ∧
      Covers base (fun d => covered d ∨ ∃ f ∈ files, f ∈ st.tree.files ∧ d <+: f.dropLast)
        st'.dirToDel queue' := by
  induction files generalizing st covered queue with
  | nil =>
    refine ⟨st, queue, rfl, hwf, rfl, hcovers.eq_map, hcovers.below, ?_⟩
    rintro d (hd | ⟨f, hf, -⟩)
    · exact hcovers.covered d hd
    · exact absurd hf List.not_mem_nil
  | cons f files ih =>
    rw [List.forall_mem_cons] at hfiles
    obtain ⟨hf, hpre, hne⟩ := hfiles.1
    obtain ⟨st₁, queue₁, hfirst, hwf₁, hdirs₁, hfiles₁, hcovers₁⟩ :=
      pkgDeleteFile_covers htrim hnil hcovers hwf hf hpre hne
    obtain ⟨st₂, queue₂, hrest, hwf₂, hdirs₂, hcovers₂⟩ := ih st₁ hcovers₁ hwf₁ hfiles.2
    refine ⟨st₂, queue₂, ?_, hwf₂, hdirs₂.trans hdirs₁, hcovers₂.eq_map, hcovers₂.below, ?_⟩
    · rw [List.map_cons, List.foldlM_cons, hfirst]
      exact hrest
    · rintro d (hd | ⟨g, hg, hmem, hd⟩)
      · exact hcovers₂.covered d (Or.inl (Or.inl hd))
      · rcases List.mem_cons.mp hg with rfl | hg
        · exact hcovers₂.covered d (Or.inl (Or.inr ⟨hmem, hd⟩))
        · rcases hfiles₁ g hmem with rfl | hstill
          · exact hcovers₂.covered d (Or.inl (Or.inr ⟨hmem, hd⟩))
          · exact hcovers₂.covered d (Or.inr ⟨g, hg, hstill, hd⟩)

theorem pkgDeleteDirs_covers (htrim : trimSlashes pkgPrefix.tail = pathName base)
    (hnil : base ≠ []) (dirs : List Path) {dirToDel : List (List Char)} {covered : Path → Prop}
    {queue : List Path} (hcovers : Covers base covered dirToDel queue)
    (hdirs : ∀ d ∈ dirs, AllNames d ∧ base <+: d ∧ d ≠ base) :
    ∃ dirToDel' queue',
      (dirs.map pathOf).foldlM (pkgDeleteDir pkgPrefix) dirToDel = some dirToDel' ∧
      Covers base (fun d => covered d ∨ ∃ r ∈ dirs, d <+: r) dirToDel' queue' := by
  induction dirs generalizing dirToDel covered queue with
  | nil =>
    refine ⟨dirToDel, queue, rfl, hcovers.eq_map, hcovers.below, ?_⟩
    rintro d (hd | ⟨r, hr, -⟩)
    · exact hcovers.covered d hd
    · exact absurd hr List.not_mem_nil
  | cons r dirs ih =>
    rw [List.forall_mem_cons] at hdirs
    obtain ⟨hr, hpre, hne⟩ := hdirs.1
    have hrnil : r ≠ [] := by
      rintro rfl
      exact hnil (List.prefix_nil.mp hpre)
    have hqueue : pkgDeleteDir pkgPrefix dirToDel (pathOf r) =
        some (mergeDir (slashed r) dirToDel) := by
      have htail : (pathOf r).tail = pathName r := rfl
      unfold pkgDeleteDir
      simp only
      rw [htail, inPrefix_pathName htrim hnil hpre hne, if_pos rfl]
      unfold pkgAddDirToDel
      simp only
      rw [endSlash_pathName hr hrnil]
    obtain ⟨dirToDel₂, queue₂, hrest, hcovers₂⟩ := ih (hcovers.merge hr hpre) hdirs.2
    refine ⟨dirToDel₂, queue₂, ?_, hcovers₂.eq_map, hcovers₂.below, ?_⟩
    · rw [List.map_cons, List.foldlM_cons, hqueue]
      exact hrest
    · rintro d (hd | ⟨g, hg, hd⟩)
      · exact hcovers₂.covered d (Or.inl (Or.inl hd))
      · rcases List.mem_cons.mp hg with rfl | hg
        · exact hcovers₂.covered d (Or.inl (Or.inr hd))
        · exact hcovers₂.covered d (Or.inr ⟨g, hg, hd⟩)

theorem cleanedUp_of_usual (hbase : AllNames base) (hnil : base ≠ []) {tree : FileTree (List Char)}
    {files dirs owned : List Path} (h : Installed base tree files dirs owned) :
    CleanedUp (pathOf base) tree files dirs owned := by
  have hnames := names_pathOf hbase
  have htrim : trimSlashes (pathOf base).tail = pathName base := trimSlashes_pathName hbase
  have hstart : Covers base (fun _ => False) ([] : List (List Char)) [] :=
    ⟨rfl, fun q hq => absurd hq List.not_mem_nil, fun d hd => hd.elim⟩
  obtain ⟨st, queue, hdeleted, hwf, hsame, hcovers⟩ :=
    pkgDeleteFiles_covers htrim hnil ⟨tree, []⟩ hstart h.wellFormed h.files_below
  obtain ⟨dirToDel, queue', hqueued, hcovers'⟩ :=
    pkgDeleteDirs_covers htrim hnil dirs.reverse hcovers
      (fun d hd => h.dirs_below d (List.mem_reverse.mp hd))
  have hfinal := foldl_rmdirP_slashed (fun o ho => (h.owned_mem o ho).1) hbase hnil st.tree
    hcovers'.below
  have hkept : ∀ k, keeps owned base k = true → base <+: k → k = base ∨ k ∈ st.tree.dirs := by
    intro k hk _
    unfold keeps at hk
    rcases of_decide_eq_true hk with howned | hkbase
    · rw [hsame]
      exact Or.inr (h.owned_mem k howned).2
    · exact Or.inl hkbase
  unfold CleanedUp
  simp only
  rw [hnames]
  refine ⟨st, queue'.foldl (FileTree.pruneUp (keeps owned base)) st.tree, hdeleted, ?_,
    FileTree.prunes_foldl_pruneUp _ _ _, ?_⟩
  · unfold pkgDeleteDirs pkgEffectiveRmdir
    simp only [Option.any_none, Bool.not_false, List.filter_true]
    rw [← List.map_reverse, hqueued, Option.map_some, hcovers'.eq_map]
    exact congrArg some hfinal
  · rintro d ⟨hpre, -, hrelevant⟩ hleft
    have hdnil : d ≠ [] := by
      rintro rfl
      exact hnil (List.prefix_nil.mp hpre)
    obtain ⟨-, hnot⟩ := FileTree.foldl_pruneUp_leftover hwf hkept d hpre hdnil hleft
    have hcovered : ∃ q ∈ queue', d <+: q := by
      apply hcovers'.covered d
      rcases hrelevant with ⟨r, hr, hd⟩ | hfile
      · exact Or.inr ⟨r, List.mem_reverse.mpr hr, hd⟩
      · exact Or.inl (Or.inr hfile)
    obtain ⟨q, hq, hd⟩ := hcovered
    exact hnot q hq hd

end

/-! ## Other prefixes -/

theorem names_trimSlashes (s : List Char) : names (trimSlashes s) = names s := by
  induction s using List.reverseRecOn with
  | nil => rfl
  | append_singleton s c ih =>
    by_cases hc : c = '/'
    · rw [hc, trimSlashes_append_slash, names_append_slash, ih]
    · unfold trimSlashes
      rw [List.rdropWhile_concat_neg _ _ _ (by simpa using hc)]

theorem trimSlashes_of_inPrefix {pkgPrefix : List Char} (hp : AllNames p)
    (h : inPrefix pkgPrefix (pathName p) = true) :
    names pkgPrefix.tail ≠ [] ∧
      trimSlashes pkgPrefix.tail = pathName (names pkgPrefix.tail) := by
  unfold inPrefix at h
  rw [List.isPrefixOf_iff_prefix] at h
  obtain ⟨c, hc, hslashed⟩ := slashed_of_prefix hp h
  have hcnames : names pkgPrefix.tail = c := by
    rw [← names_trimSlashes, ← names_append_slash, hslashed, names_slashed (hp.of_prefix hc)]
  have hcnil : c ≠ [] := by
    rintro rfl
    exact absurd hslashed (List.append_ne_nil_of_right_ne_nil _ (List.cons_ne_nil _ _))
  rw [hcnames]
  refine ⟨hcnil, ?_⟩
  rw [← pathName_slash hcnil] at hslashed
  exact List.append_cancel_right hslashed

theorem rmdirP_dirs {owned : List (List Char)} {prefixR : List Char} {tree : FileTree (List Char)}
    {dir : List Char} {d : Path} (h : d ∈ (rmdirP owned prefixR tree dir).dirs) :
    d ∈ tree.dirs := by
  induction hn : dir.length using Nat.strong_induction_on generalizing tree dir with
  | _ k ih =>
    have hup : ∀ t : FileTree (List Char),
        d ∈ ((nextDir prefixR dir).elim t (rmdirP owned prefixR t)).dirs → d ∈ t.dirs := by
      intro t ht
      cases hnext : nextDir prefixR dir with
      | none =>
        rw [hnext] at ht
        exact ht
      | some up =>
        rw [hnext] at ht
        exact ih up.length (hn ▸ nextDir_length hnext) ht rfl
    rw [rmdirP_eq] at h
    split at h
    · exact h
    · split at h
      · exact h
      · rcases FileTree.rmdir_cases tree (names dir) with ⟨hr, -⟩ | ⟨hr, -⟩ | ⟨errno, hr, hne, -⟩
        · rw [hr] at h
          exact (FileTree.mem_removeDir.mp (hup _ h)).1
        · rw [hr] at h
          exact hup tree h
        · rw [hr] at h
          simp only [if_neg hne] at h
          exact h

def lonely (f : Path) : FileTree (List Char) := { dirs := f.dropLast.inits, files := [f] }

def emptied (f : Path) : FileTree (List Char) := { dirs := f.dropLast.inits, files := [] }

theorem wellFormed_lonely (q : Path) (n : List Char) : (lonely (q ++ [n])).WellFormed := by
  unfold lonely
  rw [List.dropLast_concat]
  constructor
  · intro p hp _
    rw [List.mem_inits] at hp ⊢
    exact (List.dropLast_prefix p).trans hp
  · intro p hp
    rw [List.mem_singleton.mp hp, List.dropLast_concat]
    exact ⟨List.append_ne_nil_of_right_ne_nil q (List.cons_ne_nil n []),
      (List.mem_inits _ _).mpr (List.prefix_refl q)⟩
  · intro p hp hdir
    rw [List.mem_singleton.mp hp, List.mem_inits] at hdir
    have hlength := hdir.length_le
    rw [List.length_append, List.length_singleton] at hlength
    omega

theorem unlink_lonely (f : Path) : (lonely f).unlink f = some (emptied f) := by
  unfold FileTree.unlink lonely emptied
  rw [if_pos List.mem_cons_self]
  simp

theorem isEmpty_emptied (q : Path) (n : List Char) :
    q ∈ (emptied (q ++ [n])).dirs ∧ (emptied (q ++ [n])).isEmpty q = true := by
  unfold emptied
  rw [List.dropLast_concat]
  refine ⟨(List.mem_inits _ _).mpr (List.prefix_refl q), FileTree.isEmpty_iff.mpr ?_⟩
  rintro e (he | he) hne hparent
  · have hlength := ((List.mem_inits _ _).mp he).length_le
    have hpos := List.length_pos_iff.mpr hne
    rw [← hparent, List.length_dropLast] at hlength
    omega
  · exact absurd he List.not_mem_nil

theorem isName_singleton {c : Char} (h : c ≠ '/') (hdot : c ≠ '.') : IsName [c] := by
  constructor
  · exact List.cons_ne_nil c []
  · exact fun hmem => h (List.mem_singleton.mp hmem).symm
  · exact fun heq => hdot (List.cons.inj heq).1
  · exact fun heq => List.cons_ne_nil _ _ (List.cons.inj heq).2.symm

theorem AllNames.concat (hp : AllNames p) (hn : IsName n) : AllNames (p ++ [n]) := by
  intro m hm
  rcases List.mem_append.mp hm with hm | hm
  · exact hp m hm
  · rw [List.mem_singleton.mp hm]
    exact hn

theorem installed_lonely {base q : Path} (hq : AllNames q) (hn : IsName n) (hpre : base <+: q) :
    Installed base (lonely (q ++ [n])) [q ++ [n]] [] [] := by
  constructor
  · exact wellFormed_lonely q n
  · intro f hf
    rw [List.mem_singleton.mp hf]
    refine ⟨hq.concat hn, hpre.trans (List.prefix_append q [n]), ?_⟩
    rintro rfl
    have hlength := hpre.length_le
    rw [List.length_append, List.length_singleton] at hlength
    omega
  · exact fun d hd => absurd hd List.not_mem_nil
  · exact fun o ho => absurd ho List.not_mem_nil

theorem not_cleanedUp_outside {pkgPrefix : List Char} (hbase : AllNames (names pkgPrefix))
    (hout : ∀ p, AllNames p → inPrefix pkgPrefix (pathName p) = false) :
    ∃ tree files dirs owned, Installed (names pkgPrefix) tree files dirs owned ∧
      ¬ CleanedUp pkgPrefix tree files dirs owned := by
  generalize hnames : names pkgPrefix = base at hbase
  have hd : AllNames (base ++ [['d']]) := hbase.concat (isName_singleton (by decide) (by decide))
  have hf : AllNames ((base ++ [['d']]) ++ [['f']]) :=
    hd.concat (isName_singleton (by decide) (by decide))
  have htail : (pathOf ((base ++ [['d']]) ++ [['f']])).tail =
    pathName ((base ++ [['d']]) ++ [['f']]) := rfl
  refine ⟨lonely ((base ++ [['d']]) ++ [['f']]), [(base ++ [['d']]) ++ [['f']]], [], [],
    installed_lonely hd (isName_singleton (by decide) (by decide)) (List.prefix_append _ _), ?_⟩
  unfold CleanedUp
  simp only
  rw [hnames]
  rintro ⟨st, final, hdeleted, hremoved, -, hclean⟩
  have hst : st = { tree := emptied ((base ++ [['d']]) ++ [['f']]), dirToDel := [] } := by
    unfold pkgDeleteFiles pkgDeleteFile at hdeleted
    simp only [List.map_cons, List.map_nil, List.foldlM_cons, List.foldlM_nil, htail,
      names_pathName hf, unlink_lonely, hout _ hf, Bool.false_eq_true, if_false] at hdeleted
    exact (Option.some.inj hdeleted).symm
  have hfinal : final = emptied ((base ++ [['d']]) ++ [['f']]) := by
    rw [hst] at hremoved
    exact (Option.some.inj hremoved).symm
  have hempty := isEmpty_emptied (base ++ [['d']]) ['f']
  have hne : base ++ [['d']] ≠ base := by
    intro heq
    have hlength := congrArg List.length heq
    rw [List.length_append, List.length_singleton] at hlength
    omega
  apply hclean (base ++ [['d']])
  · refine ⟨List.prefix_append _ _, hne, Or.inr ⟨_, List.mem_cons_self, ?_, ?_⟩⟩
    · exact List.mem_cons_self
    · rw [List.dropLast_concat]
  · rw [hfinal]
    refine ⟨hempty.1, hempty.2, ?_⟩
    unfold keeps
    rw [decide_eq_false_iff_not, not_or]
    exact ⟨List.not_mem_nil, hne⟩

theorem not_cleanedUp_trailing {pkgPrefix : List Char} (hbase : AllNames (names pkgPrefix))
    (hnil : names pkgPrefix ≠ [])
    (htrim : trimSlashes pkgPrefix.tail = pathName (names pkgPrefix))
    (hother : pkgPrefix.tail ≠ pathName (names pkgPrefix)) :
    Installed (names pkgPrefix) (lonely (names pkgPrefix ++ [['f']])) [names pkgPrefix ++ [['f']]]
        [] [] ∧
      ¬ CleanedUp pkgPrefix (lonely (names pkgPrefix ++ [['f']])) [names pkgPrefix ++ [['f']]]
        [] [] := by
  generalize hnames : names pkgPrefix = base at hbase hnil htrim hother ⊢
  have hname : IsName ['f'] := isName_singleton (by decide) (by decide)
  have hf : AllNames (base ++ [['f']]) := hbase.concat hname
  have hne : base ++ [['f']] ≠ base := by
    intro heq
    have hlength := congrArg List.length heq
    rw [List.length_append, List.length_singleton] at hlength
    omega
  have htail : (pathOf (base ++ [['f']])).tail = pathName (base ++ [['f']]) := rfl
  have hempty := isEmpty_emptied base ['f']
  refine ⟨installed_lonely hbase hname (List.prefix_refl base), ?_⟩
  unfold CleanedUp
  simp only
  rw [hnames]
  rintro ⟨st, final, hdeleted, hremoved, hprunes, -⟩
  have hst : st = { tree := emptied (base ++ [['f']]), dirToDel := [slashed base] } := by
    have hparent : (base ++ [['f']]).dropLast ≠ [] := by
      rw [List.dropLast_concat]
      exact hnil
    unfold pkgDeleteFiles pkgDeleteFile at hdeleted
    simp only [List.map_cons, List.map_nil, List.foldlM_cons, List.foldlM_nil, htail,
      names_pathName hf, unlink_lonely, if_true, pkgAddDirToDel_file hf hparent,
      inPrefix_pathName htrim hnil (List.prefix_append base [['f']]) hne,
      List.dropLast_concat, Option.map_some] at hdeleted
    exact (Option.some.inj hdeleted).symm
  have hfinal : final = rmdirP [] pkgPrefix.tail (emptied (base ++ [['f']])) (slashed base) := by
    rw [hst] at hremoved
    exact (Option.some.inj hremoved).symm
  have hkeep : keeps [] base base = true := decide_eq_true (Or.inr rfl)
  rw [hst] at hprunes
  have hstays := hprunes.mem_dirs hkeep hempty.1
  have hrmdir : (emptied (base ++ [['f']])).rmdir base =
      .ok ((emptied (base ++ [['f']])).removeDir base) := by
    unfold FileTree.rmdir
    rw [if_pos hempty.1, if_neg hnil, if_pos hempty.2]
  have hpath : ¬ pkgPrefix.tail = (pathOf base).tail := hother
  rw [hfinal, rmdirP_eq, if_neg List.not_mem_nil, trimSlashes_slashed hbase hnil, if_neg hpath,
    names_slashed hbase, hrmdir] at hstays
  simp only at hstays
  have hgone : base ∈ ((emptied (base ++ [['f']])).removeDir base).dirs := by
    cases hnext : nextDir pkgPrefix.tail (slashed base) with
    | none =>
      rw [hnext] at hstays
      exact hstays
    | some up =>
      rw [hnext] at hstays
      exact rmdirP_dirs hstays
  exact (FileTree.mem_removeDir.mp hgone).2 rfl

/-- The file `/usr/local/f` with nothing else below the prefix `/usr/local/`. -/
def usrLocalFile : Path := [['u', 's', 'r'], ['l', 'o', 'c', 'a', 'l'], ['f']]

end NextBSD.Libpkg.DeleteDirs
