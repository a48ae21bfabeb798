import Mathlib.Data.List.Basic
import Mathlib.Logic.Function.Basic

/-!
# Tables of slots

A table is a list of slots of which some are free, with two marks beside it: the lowest free slot,
or the length where no slot is free, and the end of the part that is used.
-/

namespace NextBSD.SlotTable

universe u

variable {α : Type u} (free : α → Bool)

/-- `k` is the lowest free slot, or the length. -/
structure LowestFree (slots : List α) (k : Nat) : Prop where
  le : k ≤ slots.length
  below : ∀ i a, i < k → slots[i]? = some a → free a = false
  here : ∀ a, slots[k]? = some a → free a = true

/-- No slot from `n` on is used, and the last one before is. -/
structure UsedBelow (slots : List α) (n : Nat) : Prop where
  above : ∀ i a, n ≤ i → slots[i]? = some a → free a = true
  last : ∀ i, n = i + 1 → ∃ a, slots[i]? = some a ∧ free a = false

def used (slots : List α) : Nat := slots.countP (fun a => !free a)

def lower (slots : List α) : Nat → Nat
  | 0 => 0
  | n + 1 => if (slots[n]?).all free then lower slots n else n + 1

variable {free} {slots : List α} {k n i : Nat} {a : α}

theorem getElem?_set_some {j : Nat} {b : α} (h : (slots.set i a)[j]? = some b) :
    (j = i ∧ b = a) ∨ (j ≠ i ∧ slots[j]? = some b) := by
  rw [List.getElem?_set] at h
  split_ifs at h with hj hlt
  · exact Or.inl ⟨hj.symm, (Option.some.inj h).symm⟩
  · exact Or.inr ⟨fun hji => hj hji.symm, h⟩

theorem LowestFree.take (h : LowestFree free slots k) (hk : k < slots.length)
    (ha : free a = false) :
    LowestFree free (slots.set k a) (k + 1 + (slots.drop (k + 1)).findIdx free) := by
  have hle : (slots.drop (k + 1)).findIdx free ≤ (slots.drop (k + 1)).length :=
    List.findIdx_le_length
  rw [List.length_drop] at hle
  constructor
  · rw [List.length_set]
    omega
  · intro i b hi hb
    rcases getElem?_set_some hb with ⟨-, rfl⟩ | ⟨hne, hb⟩
    · exact ha
    · by_cases hik : i < k
      · exact h.below i b hik hb
      · have hfirst : i - (k + 1) < (slots.drop (k + 1)).findIdx free := by omega
        have hfree := List.not_of_lt_findIdx hfirst
        rw [List.getElem_drop] at hfree
        have hshift : k + 1 + (i - (k + 1)) = i := by omega
        simp only [hshift] at hfree
        obtain ⟨hlt, rfl⟩ := List.getElem?_eq_some_iff.mp hb
        simpa using hfree
  · intro b hb
    rcases getElem?_set_some hb with ⟨hsame, -⟩ | ⟨-, hb⟩
    · omega
    · rw [← List.getElem?_drop] at hb
      obtain ⟨hlt, rfl⟩ := List.getElem?_eq_some_iff.mp hb
      exact List.findIdx_getElem (w := hlt)

theorem LowestFree.release (h : LowestFree free slots k) (ha : free a = true) (i : Nat) :
    LowestFree free (slots.set i a) (if i < k then i else k) := by
  have hle := h.le
  constructor
  · rw [List.length_set]
    split <;> omega
  · intro j b hj hb
    rcases getElem?_set_some hb with ⟨rfl, -⟩ | ⟨-, hb⟩
    · split_ifs at hj <;> omega
    · refine h.below j b ?_ hb
      split_ifs at hj <;> omega
  · intro b hb
    rcases getElem?_set_some hb with ⟨-, rfl⟩ | ⟨hne, hb⟩
    · exact ha
    · split_ifs at hb hne with hik
      · exact absurd rfl hne
      · exact h.here b hb

theorem LowestFree.grow (h : LowestFree free slots slots.length) {more : List α}
    (hmore : ∀ a ∈ more, free a = true) : LowestFree free (slots ++ more) slots.length := by
  constructor
  · rw [List.length_append]
    omega
  · intro i a hi ha
    rw [List.getElem?_append_left hi] at ha
    exact h.below i a hi ha
  · intro a ha
    rw [List.getElem?_append_right (Nat.le_refl _)] at ha
    exact hmore a (List.mem_of_getElem? ha)

theorem UsedBelow.take (h : UsedBelow free slots n) (hk : k < slots.length) (ha : free a = false) :
    UsedBelow free (slots.set k a) (max n (k + 1)) := by
  constructor
  · intro i b hi hb
    rcases getElem?_set_some hb with ⟨rfl, -⟩ | ⟨-, hb⟩
    · omega
    · exact h.above i b (by omega) hb
  · intro i hi
    by_cases hik : i = k
    · subst hik
      exact ⟨a, List.getElem?_set_self hk, ha⟩
    · obtain ⟨b, hb, hused⟩ := h.last i (by omega)
      exact ⟨b, by rw [List.getElem?_set_ne (Ne.symm hik), hb], hused⟩

theorem usedBelow_lower (h : ∀ i a, n ≤ i → slots[i]? = some a → free a = true) :
    UsedBelow free slots (lower free slots n) := by
  induction n with
  | zero => exact ⟨h, fun i hi => absurd hi (Nat.succ_ne_zero i).symm⟩
  | succ n ih =>
    unfold lower
    split
    · next hall =>
      refine ih (fun i a hi ha => ?_)
      by_cases hin : i = n
      · subst hin
        rw [ha] at hall
        exact hall
      · exact h i a (by omega) ha
    · next hall =>
      refine ⟨h, fun i hi => ?_⟩
      obtain rfl : n = i := by omega
      cases hget : slots[n]? with
      | none =>
        rw [hget] at hall
        exact absurd rfl hall
      | some a =>
        rw [hget] at hall
        exact ⟨a, rfl, by simpa using hall⟩

theorem UsedBelow.release (h : UsedBelow free slots n) (ha : free a = true) (i : Nat) :
    UsedBelow free (slots.set i a) (lower free (slots.set i a) n) := by
  refine usedBelow_lower (fun j b hj hb => ?_)
  rcases getElem?_set_some hb with ⟨-, rfl⟩ | ⟨-, hb⟩
  · exact ha
  · exact h.above j b hj hb

theorem UsedBelow.grow (h : UsedBelow free slots n) {more : List α}
    (hmore : ∀ a ∈ more, free a = true) : UsedBelow free (slots ++ more) n := by
  constructor
  · intro i a hi ha
    by_cases hlt : i < slots.length
    · rw [List.getElem?_append_left hlt] at ha
      exact h.above i a hi ha
    · rw [List.getElem?_append_right (by omega)] at ha
      exact hmore a (List.mem_of_getElem? ha)
  · intro i hi
    obtain ⟨a, ha, hused⟩ := h.last i hi
    refine ⟨a, ?_, hused⟩
    rw [List.getElem?_append_left (List.getElem?_eq_some_iff.mp ha).1, ha]

theorem used_le_length : used free slots ≤ slots.length := List.countP_le_length

theorem LowestFree.le_used (h : LowestFree free slots k) : k ≤ used free slots := by
  have htake : (slots.take k).countP (fun a => !free a) = (slots.take k).length := by
    rw [List.countP_eq_length]
    intro a ha
    obtain ⟨i, hi, rfl⟩ := List.mem_take_iff_getElem.mp ha
    have hused := h.below i slots[i] (by omega) (List.getElem?_eq_getElem (by omega))
    simp [hused]
  have hsub := (List.take_sublist k slots).countP_le (p := fun a => !free a)
  rw [htake, List.length_take, Nat.min_eq_left h.le] at hsub
  exact hsub

theorem LowestFree.full (h : LowestFree free slots slots.length) : used free slots = slots.length :=
  Nat.le_antisymm used_le_length h.le_used

theorem LowestFree.used_lt (h : LowestFree free slots k) (hk : k < slots.length) :
    used free slots < slots.length := by
  refine Nat.lt_of_le_of_ne used_le_length (fun hall => ?_)
  have hused := List.countP_eq_length.mp hall slots[k] (List.getElem_mem hk)
  rw [h.here _ (List.getElem?_eq_getElem hk)] at hused
  exact Bool.false_ne_true hused

theorem used_map {β : Type u} (f : α → β) (free : β → Bool) (slots : List α) :
    used free (slots.map f) = used (fun a => free (f a)) slots := List.countP_map ..

theorem lower_map {β : Type u} (f : α → β) (free : β → Bool) (slots : List α) (n : Nat) :
    lower free (slots.map f) n = lower (fun a => free (f a)) slots n := by
  induction n with
  | zero => rfl
  | succ n ih =>
    unfold lower
    rw [ih, List.getElem?_map, Option.all_map]

section Owners

universe v

variable {ι : Type v}

variable (free) in
/-- Each owner has a slot of its own that holds its value, and the slots of no owner are free. -/
structure Owned (slots : List α) (value : ι → α) (owner : ι → Prop) (idx : ι → Nat) : Prop where
  holds : ∀ e, owner e → slots[idx e]? = some (value e)
  distinct : ∀ e e', owner e → owner e' → idx e = idx e' → e = e'
  rest : ∀ i a, slots[i]? = some a → (∀ e, owner e → idx e ≠ i) → free a = true

variable {value : ι → α} {owner owner' : ι → Prop} {idx idx' : ι → Nat} {e : ι}

theorem Owned.congr (h : Owned free slots value owner idx) (howner : ∀ e, owner' e ↔ owner e)
    (hidx : ∀ e, owner e → idx' e = idx e) : Owned free slots value owner' idx' := by
  constructor
  · intro e he
    rw [hidx e ((howner e).mp he)]
    exact h.holds e ((howner e).mp he)
  · intro e e' he he' hsame
    rw [hidx e ((howner e).mp he), hidx e' ((howner e').mp he')] at hsame
    exact h.distinct e e' ((howner e).mp he) ((howner e').mp he') hsame
  · intro i a ha hnone
    refine h.rest i a ha (fun e he hi => ?_)
    exact hnone e ((howner e).mpr he) ((hidx e he).trans hi)

theorem Owned.take [DecidableEq ι] (h : Owned free slots value owner idx)
    (hused : ∀ e, owner e → free (value e) = false) (hk : k < slots.length)
    (hfree : ∀ a, slots[k]? = some a → free a = true) (hnew : ¬ owner e) :
    Owned free (slots.set k (value e)) value (fun x => x = e ∨ owner x)
      (Function.update idx e k) := by
  have hother (x : ι) (hx : owner x) : x ≠ e ∧ idx x ≠ k := by
    refine ⟨fun hxe => hnew (hxe ▸ hx), fun hidx => ?_⟩
    have hvalue := h.holds x hx
    rw [hidx] at hvalue
    exact Bool.false_ne_true ((hused x hx).symm.trans (hfree _ hvalue))
  constructor
  · rintro x (rfl | hx)
    · rw [Function.update_self]
      exact List.getElem?_set_self hk
    · rw [Function.update_of_ne (hother x hx).1, List.getElem?_set_ne (hother x hx).2.symm]
      exact h.holds x hx
  · rintro x y (rfl | hx) (rfl | hy) hsame
    · rfl
    · rw [Function.update_self, Function.update_of_ne (hother y hy).1] at hsame
      exact absurd hsame.symm (hother y hy).2
    · rw [Function.update_self, Function.update_of_ne (hother x hx).1] at hsame
      exact absurd hsame (hother x hx).2
    · rw [Function.update_of_ne (hother x hx).1, Function.update_of_ne (hother y hy).1] at hsame
      exact h.distinct x y hx hy hsame
  · intro i a ha hnone
    have hik : i ≠ k := by
      intro hik
      have hne := hnone e (Or.inl rfl)
      rw [Function.update_self] at hne
      exact hne hik.symm
    rw [List.getElem?_set_ne hik.symm] at ha
    refine h.rest i a ha (fun x hx => ?_)
    have hne := hnone x (Or.inr hx)
    rwa [Function.update_of_ne (hother x hx).1] at hne

theorem Owned.release (h : Owned free slots value owner idx) (he : owner e)
    (ha : free a = true) :
    Owned free (slots.set (idx e) a) value (fun x => x ≠ e ∧ owner x) idx := by
  constructor
  · rintro x ⟨hxe, hx⟩
    have hidx : idx e ≠ idx x := fun hsame => hxe (h.distinct e x he hx hsame).symm
    rw [List.getElem?_set_ne hidx]
    exact h.holds x hx
  · intro x y hx hy hsame
    exact h.distinct x y hx.2 hy.2 hsame
  · intro i b hb hnone
    rcases getElem?_set_some hb with ⟨-, rfl⟩ | ⟨hne, hb⟩
    · exact ha
    · refine h.rest i b hb (fun x hx hi => ?_)
      by_cases hxe : x = e
      · subst hxe
        exact hne hi.symm
      · exact hnone x ⟨hxe, hx⟩ hi

theorem Owned.grow (h : Owned free slots value owner idx) {more : List α}
    (hmore : ∀ a ∈ more, free a = true) : Owned free (slots ++ more) value owner idx := by
  constructor
  · intro x hx
    have hold := h.holds x hx
    rw [List.getElem?_append_left (List.getElem?_eq_some_iff.mp hold).1, hold]
  · exact h.distinct
  · intro i a ha hnone
    by_cases hlt : i < slots.length
    · rw [List.getElem?_append_left hlt] at ha
      exact h.rest i a ha hnone
    · rw [List.getElem?_append_right (by omega)] at ha
      exact hmore a (List.mem_of_getElem? ha)

end Owners

end NextBSD.SlotTable
