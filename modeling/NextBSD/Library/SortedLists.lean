import Mathlib.Data.List.DropRight
import Mathlib.Data.List.Perm.Basic
import Mathlib.Data.List.Sort

/-!
# Insertion into a sorted list

An element goes behind all that are not above it, unless there is one of its key.  A list that
is strictly sorted by its keys is rebuilt by inserting its elements one after another.
-/

namespace NextBSD.SortedInsert

universe u v

variable {α : Type u} {κ : Type v} [LT κ] [DecidableLT κ] [DecidableEq κ]

def insertSorted (key : α → κ) (l : List α) (a : α) : Option (List α) :=
  if l.any (fun b => key b = key a) then none
  else some (l.rdropWhile (fun b => key a < key b) ++ a :: l.rtakeWhile (fun b => key a < key b))

def Sorted (key : α → κ) (l : List α) : Prop := l.Pairwise (fun a b => key a < key b)

variable {key : α → κ} {l : List α} {a : α}

theorem insertSorted_perm {l' : List α} (h : insertSorted key l a = some l') :
    l'.Perm (a :: l) := by
  unfold insertSorted at h
  split_ifs at h
  rw [← Option.some.inj h]
  refine List.perm_middle.trans (List.Perm.cons a ?_)
  unfold List.rdropWhile List.rtakeWhile
  rw [← List.reverse_append, List.takeWhile_append_dropWhile, List.reverse_reverse]

section Ordered

variable [Std.Irrefl (fun x y : κ => x < y)] [Std.Asymm (fun x y : κ => x < y)]

theorem insertSorted_above (h : ∀ b ∈ l, key b < key a) :
    insertSorted key l a = some (l ++ [a]) := by
  have hnew : ¬ l.any (fun b => key b = key a) = true := by
    rw [List.any_eq_true]
    rintro ⟨b, hb, hsame⟩
    have hlt := h b hb
    rw [of_decide_eq_true hsame] at hlt
    exact Std.Irrefl.irrefl (r := fun x y : κ => x < y) _ hlt
  have hlast (b : α) (hb : b ∈ l) : ¬ key a < key b := fun hlt =>
    Std.Asymm.asymm (r := fun x y : κ => x < y) _ _ (h b hb) hlt
  unfold insertSorted
  rw [if_neg hnew]
  cases l using List.reverseRecOn with
  | nil => rfl
  | append_singleton l b =>
    have hb := hlast b (List.mem_append_right l List.mem_cons_self)
    simp [List.rdropWhile_concat, List.rtakeWhile_concat, hb]

theorem foldl_insertSorted {β : Type u} (f : β → α) {l : List β} {done : List α}
    (h : Sorted key (done ++ l.map f)) :
    l.foldl (fun l b => (insertSorted key l (f b)).getD l) done = done ++ l.map f := by
  induction l generalizing done with
  | nil => exact (List.append_nil done).symm
  | cons b l ih =>
    have habove : ∀ x ∈ done, key x < key (f b) := fun x hx =>
      (List.pairwise_append.mp h).2.2 x hx (f b) List.mem_cons_self
    rw [List.foldl_cons, insertSorted_above habove, Option.getD_some, ih]
    · rw [List.append_assoc]
      rfl
    · rw [List.append_assoc]
      exact h

theorem foldl_insertSorted_nil {β : Type u} (key : α → κ) (f : β → α) {l : List β}
    (h : Sorted key (l.map f)) :
    l.foldl (fun l b => (insertSorted key l (f b)).getD l) [] = l.map f :=
  (foldl_insertSorted f (show Sorted key ([] ++ l.map f) from h)).trans (List.nil_append _)

end Ordered

end NextBSD.SortedInsert

/-!
## The difference of two sorted lists

Two lists that are sorted by a key are walked together, and every entry that one of them lacks is
reported.
-/

namespace NextBSD.SortedMerge

universe u v w

variable {α : Type u} {κ : Type v} {γ : Type w} [LinearOrder κ]

/-- What the walk reports: entries of the first list only, of the second only, and pairs with one
key that are reported as changed. -/
def diff (key : α → κ) (removed added : α → γ) (changed : α → α → Option γ) :
    List α → List α → List γ
  | [], [] => []
  | l :: ls, [] => removed l :: diff key removed added changed ls []
  | [], r :: rs => added r :: diff key removed added changed [] rs
  | l :: ls, r :: rs =>
    if key l < key r then removed l :: diff key removed added changed ls (r :: rs)
    else if key r < key l then added r :: diff key removed added changed (l :: ls) rs
    else (changed l r).toList ++ diff key removed added changed ls rs
termination_by ls rs => ls.length + rs.length

variable {key : α → κ} {removed added : α → γ} {changed : α → α → Option γ}

theorem diff_eq_nil_iff (ls rs : List α) :
    diff key removed added changed ls rs = [] ↔
      List.Forall₂ (fun l r => key l = key r ∧ changed l r = none) ls rs := by
  fun_induction diff key removed added changed ls rs with
  | case1 => exact ⟨fun _ => .nil, fun _ => rfl⟩
  | case2 l ls => exact ⟨nofun, nofun⟩
  | case3 r rs => exact ⟨nofun, nofun⟩
  | case4 l ls r rs hlt =>
    exact ⟨nofun, fun h => absurd (List.forall₂_cons.mp h).1.1 (ne_of_lt hlt)⟩
  | case5 l ls r rs hle hlt =>
    exact ⟨nofun, fun h => absurd (List.forall₂_cons.mp h).1.1 (ne_of_gt hlt)⟩
  | case6 l ls r rs hle hge ih =>
    have hkey : key l = key r := le_antisymm (not_lt.mp hge) (not_lt.mp hle)
    rw [List.append_eq_nil_iff, Option.toList_eq_nil_iff, ih, List.forall₂_cons]
    exact ⟨fun h => ⟨⟨hkey, h.1⟩, h.2⟩, fun h => ⟨h.1.2, h.2⟩⟩

theorem diff_keys_eq_nil_iff (ls rs : List α) :
    diff key removed added (fun _ _ => none) ls rs = [] ↔ ls.map key = rs.map key := by
  rw [diff_eq_nil_iff, ← List.forall₂_eq_eq_eq, List.forall₂_map_left_iff,
    List.forall₂_map_right_iff]
  simp only [and_true]

theorem eq_iff_forall_mem {ls rs : List κ} (hls : ls.Pairwise (· < ·))
    (hrs : rs.Pairwise (· < ·)) : ls = rs ↔ ∀ a, a ∈ ls ↔ a ∈ rs :=
  ⟨fun h a => by rw [h], fun h => hls.eq_of_mem_iff hrs h⟩

theorem eq_iff_forall_mem_of_key (key : α → κ) {ls rs : List α} (hls : (ls.map key).Pairwise (· < ·))
    (hrs : (rs.map key).Pairwise (· < ·)) : ls = rs ↔ ∀ a, a ∈ ls ↔ a ∈ rs := by
  refine ⟨fun h a => by rw [h], fun h => ?_⟩
  rw [List.pairwise_map] at hls hrs
  have : Std.Irrefl (fun a b : α => key a < key b) := ⟨fun a => lt_irrefl (key a)⟩
  have : Std.Antisymm (fun a b : α => key a < key b) :=
    ⟨fun a b hab hba => absurd hba (lt_asymm hab)⟩
  exact hls.eq_of_mem_iff hrs h

end NextBSD.SortedMerge
