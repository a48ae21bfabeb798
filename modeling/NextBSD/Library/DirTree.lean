import Mathlib.Data.List.Infix
import Mathlib.Data.List.Basic

/-!
# Empty directories

A tree of directories and other files, and the removal of empty directories from a path upwards.
Where the walk may go on it leaves no directory on the path empty.
-/

namespace NextBSD.DirTree

universe u

variable {α : Type u}

/-- Directories and other files by the names that lead to them.  The root is `[]`. -/
structure FileTree (α : Type u) where
  dirs : List (List α)
  files : List (List α)

inductive Errno where
  | enoent
  | enotdir
  | enotempty
  | ebusy
  deriving DecidableEq, Repr

namespace FileTree

/-- Every entry is in a directory, and nothing is a directory and another file. -/
structure WellFormed (t : FileTree α) : Prop where
  parent_dir : ∀ p ∈ t.dirs, p ≠ [] → p.dropLast ∈ t.dirs
  parent_file : ∀ p ∈ t.files, p ≠ [] ∧ p.dropLast ∈ t.dirs
  apart : ∀ p ∈ t.files, p ∉ t.dirs

variable [DecidableEq α]

def isEmpty (t : FileTree α) (d : List α) : Bool :=
  (t.dirs ++ t.files).all (fun e => e = [] ∨ e.dropLast ≠ d)

def removeDir (t : FileTree α) (d : List α) : FileTree α := { t with dirs := t.dirs.filter (· ≠ d) }

def unlink (t : FileTree α) (p : List α) : Option (FileTree α) :=
  if p ∈ t.files then some { t with files := t.files.filter (· ≠ p) } else none

def rmdir (t : FileTree α) (p : List α) : Except Errno (FileTree α) :=
  if p ∈ t.dirs then
    if p = [] then .error .ebusy
    else if t.isEmpty p then .ok (t.removeDir p)
    else .error .enotempty
  else if t.files.any (fun f => f.isPrefixOf p) then .error .enotdir
  else .error .enoent

def Leftover (keep : List α → Bool) (t : FileTree α) (d : List α) : Prop :=
  d ∈ t.dirs ∧ t.isEmpty d = true ∧ keep d = false

/-- Directories have been removed that were empty at that moment and not to be kept. -/
inductive Prunes (keep : List α → Bool) (t : FileTree α) : FileTree α → Prop where
  | refl : Prunes keep t t
  | remove {t' : FileTree α} (h : Prunes keep t t') (d : List α) (hdir : d ∈ t'.dirs)
      (hroot : d ≠ []) (hempty : t'.isEmpty d = true) (hkeep : keep d = false) :
      Prunes keep t (t'.removeDir d)

/-- Directories are removed from a path upwards until one is kept or cannot be removed. -/
def pruneUp (keep : List α → Bool) (t : FileTree α) (p : List α) : FileTree α :=
  if keep p then t
  else
    match t.rmdir p with
    | .ok t' => if _ : p = [] then t' else pruneUp keep t' p.dropLast
    | .error .enoent => if _ : p = [] then t else pruneUp keep t p.dropLast
    | .error _ => t
termination_by p.length
decreasing_by
  all_goals
    have := List.length_pos_iff.mpr ‹_›
    rw [List.length_dropLast]
    omega

variable {keep : List α → Bool} {t t' : FileTree α} {d p : List α}

theorem isEmpty_iff :
    t.isEmpty d = true ↔ ∀ e, e ∈ t.dirs ∨ e ∈ t.files → e ≠ [] → e.dropLast ≠ d := by
  unfold isEmpty
  rw [List.all_eq_true]
  simp only [List.mem_append, decide_eq_true_eq]
  constructor
  · intro h e he hne
    exact (h e he).resolve_left hne
  · intro h e he
    by_cases hne : e = []
    · exact Or.inl hne
    · exact Or.inr (h e he hne)

theorem mem_removeDir {e : List α} : e ∈ (t.removeDir d).dirs ↔ e ∈ t.dirs ∧ e ≠ d := by
  unfold removeDir
  rw [List.mem_filter, decide_eq_true_eq]

theorem isEmpty_removeDir (h : (t.removeDir p).isEmpty d = true) (hne : p.dropLast ≠ d) :
    t.isEmpty d = true := by
  rw [isEmpty_iff] at h ⊢
  intro e he hroot
  by_cases hep : e = p
  · rw [hep]
    exact hne
  · exact h e (he.imp (fun hd => mem_removeDir.mpr ⟨hd, hep⟩) id) hroot

omit [DecidableEq α] in
theorem prefix_dropLast (hpre : d <+: p) (hne : d ≠ p) : p ≠ [] ∧ d <+: p.dropLast := by
  obtain ⟨s, rfl⟩ := hpre
  have hs : s ≠ [] := by
    rintro rfl
    exact hne (List.append_nil d).symm
  refine ⟨List.append_ne_nil_of_right_ne_nil d hs, ?_⟩
  rw [List.dropLast_append_of_ne_nil hs]
  exact List.prefix_append _ _

theorem WellFormed.mem_dirs_of_prefix (h : t.WellFormed) (hp : p ∈ t.dirs) (hpre : d <+: p) :
    d ∈ t.dirs := by
  induction p using List.reverseRecOn with
  | nil =>
    rw [List.prefix_nil.mp hpre]
    exact hp
  | append_singleton p c ih =>
    by_cases heq : d = p ++ [c]
    · rw [heq]
      exact hp
    · have hroot : p ++ [c] ≠ [] := List.append_ne_nil_of_right_ne_nil p (List.cons_ne_nil c [])
      have hparent := h.parent_dir _ hp hroot
      have hpre' := (prefix_dropLast hpre heq).2
      rw [List.dropLast_concat] at hparent hpre'
      exact ih hparent hpre'

theorem WellFormed.not_isEmpty (h : t.WellFormed) (hp : p ∈ t.dirs ∨ p ∈ t.files) (hpre : d <+: p)
    (hne : d ≠ p) : t.isEmpty d ≠ true := by
  induction p using List.reverseRecOn with
  | nil => exact absurd (List.prefix_nil.mp hpre) hne
  | append_singleton p c ih =>
    have hroot : p ++ [c] ≠ [] := List.append_ne_nil_of_right_ne_nil p (List.cons_ne_nil c [])
    by_cases heq : d = p
    · intro hempty
      have hchild := isEmpty_iff.mp hempty (p ++ [c]) hp hroot
      rw [List.dropLast_concat] at hchild
      exact hchild heq.symm
    · have hparent : p ∈ t.dirs := by
        have hin : (p ++ [c]).dropLast ∈ t.dirs :=
          hp.elim (fun hd => h.parent_dir _ hd hroot) (fun hf => (h.parent_file _ hf).2)
        rwa [List.dropLast_concat] at hin
      have hpre' := (prefix_dropLast hpre hne).2
      rw [List.dropLast_concat] at hpre'
      exact ih (Or.inl hparent) hpre' heq

theorem WellFormed.removeDir (h : t.WellFormed) (hempty : t.isEmpty d = true) :
    (t.removeDir d).WellFormed := by
  have hchild := isEmpty_iff.mp hempty
  constructor
  · intro p hp hroot
    have hdir := (mem_removeDir.mp hp).1
    exact mem_removeDir.mpr ⟨h.parent_dir p hdir hroot, hchild p (Or.inl hdir) hroot⟩
  · intro p hp
    obtain ⟨hroot, hdir⟩ := h.parent_file p hp
    exact ⟨hroot, mem_removeDir.mpr ⟨hdir, hchild p (Or.inr hp) hroot⟩⟩
  · intro p hp hdir
    exact h.apart p hp (mem_removeDir.mp hdir).1

theorem WellFormed.unlink (h : t.WellFormed) (hu : t.unlink p = some t') : t'.WellFormed := by
  unfold FileTree.unlink at hu
  by_cases hp : p ∈ t.files
  · rw [if_pos hp] at hu
    rw [← Option.some.inj hu]
    refine ⟨h.parent_dir, fun q hq => ?_, fun q hq => ?_⟩
    · exact h.parent_file q (List.mem_of_mem_filter hq)
    · exact h.apart q (List.mem_of_mem_filter hq)
  · rw [if_neg hp] at hu
    exact absurd hu (Option.some_ne_none t').symm

/-! ## Pruning -/

theorem Prunes.trans {t'' : FileTree α} (h : Prunes keep t t') (h' : Prunes keep t' t'') :
    Prunes keep t t'' := by
  induction h' with
  | refl => exact h
  | remove _ d hdir hroot hempty hkeep ih => exact ih.remove d hdir hroot hempty hkeep

theorem Prunes.wellFormed (h : Prunes keep t t') (hwf : t.WellFormed) : t'.WellFormed := by
  induction h with
  | refl => exact hwf
  | remove _ d _ _ hempty _ ih => exact ih.removeDir hempty

theorem Prunes.mem_dirs (h : Prunes keep t t') (hkeep : keep d = true) (hd : d ∈ t.dirs) :
    d ∈ t'.dirs := by
  induction h with
  | refl => exact hd
  | remove _ e _ _ _ hremoved ih =>
    refine mem_removeDir.mpr ⟨ih, ?_⟩
    rintro rfl
    rw [hkeep] at hremoved
    exact Bool.false_ne_true hremoved.symm

theorem rmdir_cases (t : FileTree α) (p : List α) :
    (t.rmdir p = .ok (t.removeDir p) ∧ p ∈ t.dirs ∧ p ≠ [] ∧ t.isEmpty p = true) ∨
      (t.rmdir p = .error .enoent ∧ p ∉ t.dirs) ∨
      ∃ errno, t.rmdir p = .error errno ∧ errno ≠ .enoent ∧
        ((p ∈ t.dirs ∧ (p = [] ∨ t.isEmpty p = false)) ∨ ∃ f ∈ t.files, f <+: p) := by
  unfold rmdir
  by_cases hdir : p ∈ t.dirs
  · rw [if_pos hdir]
    by_cases hroot : p = []
    · rw [if_pos hroot]
      exact Or.inr (Or.inr ⟨_, rfl, by decide, Or.inl ⟨hdir, Or.inl hroot⟩⟩)
    · rw [if_neg hroot]
      by_cases hempty : t.isEmpty p = true
      · rw [if_pos hempty]
        exact Or.inl ⟨rfl, hdir, hroot, hempty⟩
      · rw [if_neg hempty]
        exact Or.inr (Or.inr ⟨_, rfl, by decide,
          Or.inl ⟨hdir, Or.inr (Bool.eq_false_iff.mpr hempty)⟩⟩)
  · rw [if_neg hdir]
    by_cases hfile : (t.files.any fun f => f.isPrefixOf p) = true
    · rw [if_pos hfile]
      obtain ⟨f, hf, hpre⟩ := List.any_eq_true.mp hfile
      exact Or.inr (Or.inr ⟨_, rfl, by decide, Or.inr ⟨f, hf, List.isPrefixOf_iff_prefix.mp hpre⟩⟩)
    · rw [if_neg hfile]
      exact Or.inr (Or.inl ⟨rfl, hdir⟩)

theorem pruneUp_cases (keep : List α → Bool) (t : FileTree α) (p : List α) :
    (pruneUp keep t p = t ∧ (keep p = true ∨ p = [] ∨
      (p ∈ t.dirs ∧ t.isEmpty p = false) ∨ ∃ f ∈ t.files, f <+: p)) ∨
      (pruneUp keep t p = pruneUp keep t p.dropLast ∧ p ≠ [] ∧ keep p = false ∧ p ∉ t.dirs) ∨
      (pruneUp keep t p = pruneUp keep (t.removeDir p) p.dropLast ∧ p ≠ [] ∧ keep p = false ∧
        p ∈ t.dirs ∧ t.isEmpty p = true) := by
  rw [pruneUp]
  by_cases hkeep : keep p = true
  · rw [if_pos hkeep]
    exact Or.inl ⟨rfl, Or.inl hkeep⟩
  · have hfree := Bool.eq_false_iff.mpr hkeep
    rw [if_neg hkeep]
    rcases rmdir_cases t p with ⟨hr, hdir, hroot, hempty⟩ | ⟨hr, hdir⟩ | ⟨errno, hr, hne, hwhy⟩
    · rw [hr]
      refine Or.inr (Or.inr ⟨?_, hroot, hfree, hdir, hempty⟩)
      exact dif_neg hroot
    · rw [hr]
      by_cases hroot : p = []
      · exact Or.inl ⟨dif_pos hroot, Or.inr (Or.inl hroot)⟩
      · exact Or.inr (Or.inl ⟨dif_neg hroot, hroot, hfree, hdir⟩)
    · rw [hr]
      refine Or.inl ⟨?_, Or.inr ?_⟩
      · cases errno with
        | enoent => exact absurd rfl hne
        | enotdir => rfl
        | enotempty => rfl
        | ebusy => rfl
      · rcases hwhy with ⟨hdir, hroot | hfull⟩ | hfile
        · exact Or.inl hroot
        · exact Or.inr (Or.inl ⟨hdir, hfull⟩)
        · exact Or.inr (Or.inr hfile)

theorem prunes_pruneUp (keep : List α → Bool) (t : FileTree α) (p : List α) :
    Prunes keep t (pruneUp keep t p) := by
  induction hn : p.length using Nat.strong_induction_on generalizing t p with
  | _ n ih =>
    have hshort : p ≠ [] → p.dropLast.length < n := by
      intro hroot
      have hpos := List.length_pos_iff.mpr hroot
      rw [List.length_dropLast]
      omega
    rcases pruneUp_cases keep t p with ⟨heq, -⟩ | ⟨heq, hroot, -, -⟩ |
      ⟨heq, hroot, hfree, hdir, hempty⟩
    · rw [heq]
      exact Prunes.refl
    · rw [heq]
      exact ih _ (hshort hroot) t p.dropLast rfl
    · rw [heq]
      exact (Prunes.refl.remove p hdir hroot hempty hfree).trans
        (ih _ (hshort hroot) (t.removeDir p) p.dropLast rfl)

theorem pruneUp_leftover {base : List α} (hwf : t.WellFormed)
    (hkept : ∀ k, keep k = true → base <+: k → k = base ∨ k ∈ t.dirs) :
    ∀ d, base <+: d → d ≠ [] → Leftover keep (pruneUp keep t p) d →
      Leftover keep t d ∧ ¬ d <+: p := by
  induction hn : p.length using Nat.strong_induction_on generalizing t p with
  | _ n ih =>
    have hshort : p ≠ [] → p.dropLast.length < n := by
      intro hroot
      have hpos := List.length_pos_iff.mpr hroot
      rw [List.length_dropLast]
      omega
    rcases pruneUp_cases keep t p with ⟨heq, hwhy⟩ | ⟨heq, hroot, -, hdir⟩ |
      ⟨heq, hroot, hfree, hdir, hempty⟩
    · rw [heq]
      rintro d hbase hnonroot ⟨hd, hdempty, hdfree⟩
      refine ⟨⟨hd, hdempty, hdfree⟩, fun hpre => ?_⟩
      -- Something is on the path below the directory.
      have hbelow : ∀ q, q ∈ t.dirs ∨ q ∈ t.files → d <+: q → d = q := by
        intro q hq hdq
        by_contra hne
        exact hwf.not_isEmpty hq hdq hne hdempty
      rcases hwhy with hkeep | hnil | ⟨hdir, hfull⟩ | ⟨f, hf, hfp⟩
      · have hne : d ≠ p := by
          rintro rfl
          rw [hkeep] at hdfree
          exact Bool.false_ne_true hdfree.symm
        rcases hkept p hkeep (hbase.trans hpre) with hpbase | hpdir
        · rw [hpbase] at hpre hne
          exact hne (hpre.eq_of_length (Nat.le_antisymm hpre.length_le hbase.length_le))
        · exact hne (hbelow p (Or.inl hpdir) hpre)
      · rw [hnil] at hpre
        exact hnonroot (List.prefix_nil.mp hpre)
      · rw [hbelow p (Or.inl hdir) hpre, hfull] at hdempty
        exact Bool.false_ne_true hdempty
      · rcases List.prefix_or_prefix_of_prefix hpre hfp with hdf | hfd
        · rw [hbelow f (Or.inr hf) hdf] at hd
          exact hwf.apart f hf hd
        · exact hwf.apart f hf (hwf.mem_dirs_of_prefix hd hfd)
    · rw [heq]
      intro d hbase hnonroot hleft
      obtain ⟨hold, hnot⟩ := ih _ (hshort hroot) hwf hkept rfl d hbase hnonroot hleft
      refine ⟨hold, fun hpre => ?_⟩
      by_cases hdp : d = p
      · exact hdir (hdp ▸ hold.1)
      · exact hnot (prefix_dropLast hpre hdp).2
    · rw [heq]
      have hkept' : ∀ k, keep k = true → base <+: k → k = base ∨ k ∈ (t.removeDir p).dirs := by
        intro k hkeep hbk
        refine (hkept k hkeep hbk).imp id (fun hk => mem_removeDir.mpr ⟨hk, ?_⟩)
        rintro rfl
        rw [hkeep] at hfree
        exact Bool.false_ne_true hfree.symm
      intro d hbase hnonroot hleft
      obtain ⟨⟨hd, hdempty, hdfree⟩, hnot⟩ := ih _ (hshort hroot) (hwf.removeDir hempty) hkept' rfl
        d hbase hnonroot hleft
      obtain ⟨hdt, hdp⟩ := mem_removeDir.mp hd
      -- The parent is on the rest of the path, so it is not left empty by this removal.
      have hparent : p.dropLast ≠ d := by
        rintro rfl
        exact hnot (List.prefix_refl _)
      refine ⟨⟨hdt, isEmpty_removeDir hdempty hparent, hdfree⟩, fun hpre => ?_⟩
      exact hnot (prefix_dropLast hpre hdp).2

theorem foldl_pruneUp_leftover {base : List α} {queue : List (List α)} (hwf : t.WellFormed)
    (hkept : ∀ k, keep k = true → base <+: k → k = base ∨ k ∈ t.dirs) :
    ∀ d, base <+: d → d ≠ [] → Leftover keep (queue.foldl (pruneUp keep) t) d →
      Leftover keep t d ∧ ∀ p ∈ queue, ¬ d <+: p := by
  induction queue generalizing t with
  | nil => exact fun d _ _ hleft => ⟨hleft, fun p hp => absurd hp List.not_mem_nil⟩
  | cons p queue ih =>
    intro d hbase hnonroot hleft
    have hprunes := prunes_pruneUp keep t p
    have hkept' : ∀ k, keep k = true → base <+: k → k = base ∨ k ∈ (pruneUp keep t p).dirs :=
      fun k hkeep hbk => (hkept k hkeep hbk).imp id (hprunes.mem_dirs hkeep)
    obtain ⟨hafter, hrest⟩ := ih (hprunes.wellFormed hwf) hkept' d hbase hnonroot hleft
    obtain ⟨hbefore, hfirst⟩ := pruneUp_leftover hwf hkept d hbase hnonroot hafter
    exact ⟨hbefore, List.forall_mem_cons.mpr ⟨hfirst, hrest⟩⟩

theorem prunes_foldl_pruneUp (keep : List α → Bool) (t : FileTree α) (queue : List (List α)) :
    Prunes keep t (queue.foldl (pruneUp keep) t) := by
  induction queue generalizing t with
  | nil => exact Prunes.refl
  | cons p queue ih => exact (prunes_pruneUp keep t p).trans (ih (pruneUp keep t p))

end FileTree
end NextBSD.DirTree
