import Mathlib.Data.List.Chain
import Mathlib.Data.List.Infix
import Mathlib.Data.List.Nodup
import Mathlib.Logic.Function.Basic

/-!
# Circular doubly linked lists

Each element points to the one before it and to the one behind it.  A ring is given by the list of
its elements, the last of which is joined to the first.
-/

namespace NextBSD.CircularList

structure Links (α : Type) where
  up : α → α
  down : α → α

variable {α : Type}

def Links.Joined (l : Links α) (a b : α) : Prop := l.down a = b ∧ l.up b = a

structure IsRing (l : Links α) (xs : List α) : Prop where
  nodup : xs.Nodup
  joined : xs.IsChain l.Joined
  closed : ∀ a ∈ xs.getLast?, ∀ b ∈ xs.head?, l.Joined a b

theorem isRing_nil (l : Links α) : IsRing l [] where
  nodup := List.nodup_nil
  joined := List.IsChain.nil
  closed := nofun

section

variable {l : Links α} {as bs : List α} {a b : α}

theorem IsRing.rotate (h : IsRing l (as ++ bs)) : IsRing l (bs ++ as) := by
  by_cases has : as = []
  · rwa [has, List.append_nil, ← List.nil_append bs, ← has]
  by_cases hbs : bs = []
  · rwa [hbs, List.nil_append, ← List.append_nil as, ← hbs]
  obtain ⟨hnodup, hjoined, hclosed⟩ := h
  rw [List.isChain_append] at hjoined
  rw [List.getLast?_append_of_ne_nil _ hbs, List.head?_append_of_ne_nil _ has] at hclosed
  obtain ⟨hchain, hchain', hbetween⟩ := hjoined
  refine ⟨List.nodup_append_comm.mp hnodup,
    List.isChain_append.mpr ⟨hchain', hchain, hclosed⟩, ?_⟩
  rwa [List.getLast?_append_of_ne_nil _ has, List.head?_append_of_ne_nil _ hbs]

theorem IsRing.next (h : IsRing l (as ++ a :: b :: bs)) : l.Joined a b :=
  (List.isChain_cons_cons.mp (List.isChain_append.mp h.joined).2.1).1

theorem IsRing.down_last (h : IsRing l (a :: as)) {top : α} (htop : top ∈ (a :: as).getLast?) :
    l.down top = a := (h.closed top htop a rfl).1

theorem IsRing.down_mem {xs : List α} (h : IsRing l xs) (ha : a ∈ xs) : l.down a ∈ xs := by
  obtain ⟨as, bs, rfl⟩ := List.append_of_mem ha
  cases bs with
  | nil =>
    cases as with
    | nil =>
      have hself : l.down a = a := @IsRing.down_last _ l [] a h a rfl
      rw [hself]
      exact List.mem_cons_self
    | cons x as =>
      rw [List.cons_append] at h ⊢
      rw [h.down_last (by rw [← List.cons_append]; exact List.getLast?_concat)]
      exact List.mem_cons_self
  | cons b bs =>
    rw [h.next.1]
    exact List.mem_append_right as (List.mem_cons_of_mem a List.mem_cons_self)

theorem IsRing.up_of_concat (h : IsRing l (as ++ [a] ++ b :: bs)) : l.up b = a := by
  rw [List.append_assoc] at h
  exact h.next.2

end

theorem isChain_imp {R S : α → α → Prop} {xs : List α} (h : xs.IsChain R)
    (himp : ∀ a ∈ xs.dropLast, ∀ b ∈ xs.tail, R a b → S a b) : xs.IsChain S := by
  induction xs with
  | nil => exact List.IsChain.nil
  | cons a xs ih =>
    cases xs with
    | nil => exact List.IsChain.singleton a
    | cons b xs =>
      obtain ⟨hab, hrest⟩ := List.isChain_cons_cons.mp h
      refine List.isChain_cons_cons.mpr ⟨himp a ?_ b List.mem_cons_self hab, ih hrest ?_⟩
      · rw [List.dropLast_cons_cons]
        exact List.mem_cons_self
      · intro x hx y hy
        refine himp x ?_ y (List.mem_cons_of_mem b hy)
        rw [List.dropLast_cons_cons]
        exact List.mem_cons_of_mem a hx

theorem ne_last_of_mem_dropLast {xs : List α} (h : xs.Nodup) {a top : α} (ha : a ∈ xs.dropLast)
    (htop : xs.getLast? = some top) : a ≠ top := by
  rintro rfl
  rw [← List.dropLast_append_getLast? a htop] at h
  exact (List.nodup_append.mp h).2.2 a ha a List.mem_cons_self rfl

theorem ne_head_of_mem_tail {x : α} {xs : List α} (h : (x :: xs).Nodup) {b : α} (hb : b ∈ xs) :
    b ≠ x := by
  rintro rfl
  exact (List.nodup_cons.mp h).1 hb

variable [DecidableEq α]

def Links.alone (l : Links α) (x : α) : Links α :=
  { up := Function.update l.up x x, down := Function.update l.down x x }

def Links.insert (l : Links α) (top x : α) : Links α :=
  let up := Function.update l.up x top
  let down := Function.update l.down x (l.down top)
  { up := Function.update up (down x) x, down := Function.update down top x }

def Links.unlink (l : Links α) (x : α) : Links α :=
  let down := Function.update l.down (l.up x) (l.down x)
  { up := Function.update l.up (down x) (l.up x), down := down }

theorem Links.unlink_up_self (l : Links α) (x : α) : (l.unlink x).up x = l.up x := by
  unfold Links.unlink
  dsimp only
  by_cases h : Function.update l.down (l.up x) (l.down x) x = x
  · rw [h, Function.update_self]
  · rw [Function.update_of_ne fun heq => h heq.symm]

theorem isRing_alone (l : Links α) (x : α) : IsRing (l.alone x) [x] where
  nodup := List.nodup_singleton x
  joined := List.IsChain.singleton x
  closed := by
    rintro a ha b hb
    cases ha
    cases hb
    exact ⟨Function.update_self .., Function.update_self ..⟩

section

variable {l : Links α} {x : α}

theorem IsRing.unlink_head {y : α} {ys : List α} (h : IsRing l (x :: y :: ys)) :
    IsRing (l.unlink x) (y :: ys) := by
  obtain ⟨z, hz⟩ : ∃ z, (y :: ys).getLast? = some z := ⟨_, List.getLast?_cons⟩
  have hnodup := (List.nodup_cons.mp h.nodup).2
  have hxz : z ≠ x := fun hzx =>
    (List.nodup_cons.mp h.nodup).1 (hzx ▸ List.mem_of_getLast? hz)
  obtain ⟨hdown, -⟩ := @IsRing.next _ l [] ys x y h
  obtain ⟨-, hup⟩ := h.closed z (by rw [List.getLast?_cons_cons]; exact hz) x rfl
  have hunlink : l.unlink x =
      { up := Function.update l.up y z, down := Function.update l.down z y } := by
    unfold Links.unlink
    dsimp only
    rw [hup, hdown, Function.update_of_ne hxz.symm, hdown]
  have hchain := (List.isChain_cons_cons.mp h.joined).2
  rw [hunlink]
  refine ⟨hnodup, isChain_imp hchain fun a ha b hb hab => ?_, ?_⟩
  · refine ⟨?_, ?_⟩
    · show Function.update l.down z y a = b
      rw [Function.update_of_ne (ne_last_of_mem_dropLast hnodup ha hz), hab.1]
    · show Function.update l.up y z b = a
      rw [Function.update_of_ne (ne_head_of_mem_tail hnodup hb), hab.2]
  · intro a ha b hb
    obtain rfl : z = a := Option.some.inj (hz.symm.trans ha)
    cases hb
    exact ⟨Function.update_self .., Function.update_self ..⟩

theorem IsRing.unlink {as bs : List α} (h : IsRing l (as ++ x :: bs)) (hne : as ++ bs ≠ []) :
    IsRing (l.unlink x) (as ++ bs) := by
  have hrest : bs ++ as ≠ [] := fun heq =>
    hne (by rw [List.append_eq_nil_iff] at heq ⊢; exact heq.symm)
  have hround : IsRing l (x :: (bs ++ as)) := h.rotate
  obtain ⟨y, ys, hys⟩ := List.exists_cons_of_ne_nil hrest
  rw [hys] at hround
  have hgone := hround.unlink_head
  rw [← hys] at hgone
  exact hgone.rotate

theorem IsRing.insert {xs : List α} {top : α} (h : IsRing l xs) (htop : xs.getLast? = some top)
    (hx : x ∉ xs) : IsRing (l.insert top x) (xs ++ [x]) := by
  obtain ⟨y, ys, rfl⟩ := List.exists_cons_of_ne_nil fun hnil : xs = [] => by
    rw [hnil] at htop
    cases htop
  have hxt : top ≠ x := fun heq => hx (heq ▸ List.mem_of_getLast? htop)
  have hxy : y ≠ x := fun heq => hx (heq ▸ List.mem_cons_self)
  have hinsert : l.insert top x =
      { up := Function.update (Function.update l.up x top) y x
        down := Function.update (Function.update l.down x y) top x } := by
    unfold Links.insert
    dsimp only
    rw [Function.update_self, h.down_last htop]
  rw [hinsert]
  refine ⟨?_, List.isChain_append.mpr ⟨isChain_imp h.joined fun a ha b hb hab => ?_,
    List.IsChain.singleton x, ?_⟩, ?_⟩
  · rw [List.nodup_append]
    refine ⟨h.nodup, List.nodup_singleton x, fun a ha b hb heq => hx ?_⟩
    rw [← List.mem_singleton.mp hb, ← heq]
    exact ha
  · have hax : a ≠ x := fun heq => hx (heq ▸ List.mem_of_mem_dropLast ha)
    have hbx : b ≠ x := fun heq => hx (heq ▸ List.mem_of_mem_tail hb)
    refine ⟨?_, ?_⟩
    · show Function.update (Function.update l.down x y) top x a = b
      rw [Function.update_of_ne (ne_last_of_mem_dropLast h.nodup ha htop),
        Function.update_of_ne hax, hab.1]
    · show Function.update (Function.update l.up x top) y x b = a
      rw [Function.update_of_ne (ne_head_of_mem_tail h.nodup hb), Function.update_of_ne hbx, hab.2]
  · intro a ha b hb
    obtain rfl : top = a := Option.some.inj (htop.symm.trans ha)
    cases hb
    refine ⟨Function.update_self .., ?_⟩
    show Function.update (Function.update l.up x top) y x x = top
    rw [Function.update_of_ne hxy.symm, Function.update_self]
  · intro a ha b hb
    rw [List.getLast?_concat] at ha
    cases ha
    cases hb
    refine ⟨?_, Function.update_self ..⟩
    show Function.update (Function.update l.down x y) top x x = y
    rw [Function.update_of_ne hxt.symm, Function.update_self]

end

end NextBSD.CircularList
