import NextBSD.Library.SlotTable

/-!
# Open addressing with tombstones

Every key has a path through the slots of a table.  A search walks the path until it meets the
key or a slot that was never used.
-/

namespace NextBSD.OpenAddressing

universe u v

inductive Slot (K : Type u) (V : Type v)
  | unused
  | tombstone
  | live (key : K) (value : V)
  deriving DecidableEq, Repr

variable {K : Type u} {V : Type v}

def Slot.isLive : Slot K V → Bool
  | live _ _ => true
  | _ => false

def Slot.binding? : Slot K V → Option (K × V)
  | live k v => some (k, v)
  | _ => none

def bindings (slots : List (Slot K V)) : List (K × V) := slots.filterMap Slot.binding?

def Holds (slots : List (Slot K V)) (k : K) (v : V) : Prop := ∃ i : Nat, slots[i]? = some (.live k v)

/-- Every key is in one slot, and no slot before it on its path was never used. -/
structure WellPlaced (path : K → List Nat) (slots : List (Slot K V)) : Prop where
  unique : ∀ {i j : Nat} {k : K} {v w : V}, slots[i]? = some (.live k v) →
    slots[j]? = some (.live k w) → i = j
  reach : ∀ {i : Nat} {k : K} {v : V}, slots[i]? = some (.live k v) →
    ∃ before after, path k = before ++ i :: after ∧
      ∀ j ∈ before, ∃ s, slots[j]? = some s ∧ s ≠ .unused

section Search

variable [DecidableEq K] {slots : List (Slot K V)} {key : K} {value : V}

def find (slots : List (Slot K V)) (key : K) : List Nat → Option Nat
  | [] => none
  | i :: path =>
    match slots[i]? with
    | some (.live k _) => if k = key then some i else find slots key path
    | some .tombstone => find slots key path
    | some .unused => none
    | none => none

def place (slots : List (Slot K V)) (key : K) (value : V) : List Nat → Option (List (Slot K V))
  | [] => none
  | i :: path =>
    match slots[i]? with
    | some (.live k _) => if k = key then none else place slots key value path
    | some _ => some (slots.set i (.live key value))
    | none => none

def shadowed (slots : List (Slot K V)) (key : K) : List Nat → Bool
  | [] => false
  | i :: path =>
    match slots[i]? with
    | some (.live k _) => if k = key then false else shadowed slots key path
    | some .tombstone => (find slots key path).isSome
    | some .unused => false
    | none => false

theorem find_sound {path : List Nat} {i : Nat} (h : find slots key path = some i) :
    ∃ v, slots[i]? = some (.live key v) := by
  induction path with
  | nil => exact absurd h.symm (Option.some_ne_none i)
  | cons j path ih =>
    unfold find at h
    split at h
    · next k v hslot =>
      split at h
      · next hk =>
        rw [← Option.some.inj h, ← hk]
        exact ⟨v, hslot⟩
      · exact ih h
    · exact ih h
    · exact absurd h.symm (Option.some_ne_none i)
    · exact absurd h.symm (Option.some_ne_none i)

theorem find_complete {before : List Nat} (after : List Nat) {i : Nat} {v : V}
    (hbefore : ∀ j ∈ before, ∃ s, slots[j]? = some s ∧ s ≠ .unused)
    (h : slots[i]? = some (.live key v)) :
    (find slots key (before ++ i :: after)).isSome = true := by
  induction before with
  | nil =>
    rw [List.nil_append]
    unfold find
    rw [h]
    dsimp only
    rw [if_pos rfl]
    rfl
  | cons j before ih =>
    have hrest := ih fun j' hj' => hbefore j' (List.mem_cons_of_mem j hj')
    obtain ⟨s, hs, hused⟩ := hbefore j List.mem_cons_self
    rw [List.cons_append]
    unfold find
    rw [hs]
    cases s with
    | unused => exact absurd rfl hused
    | tombstone => exact hrest
    | live k w =>
      dsimp only
      split
      · rfl
      · exact hrest

theorem WellPlaced.find_iff {path : K → List Nat} (h : WellPlaced path slots) (i : Nat) :
    find slots key (path key) = some i ↔ ∃ v, slots[i]? = some (.live key v) := by
  refine ⟨find_sound, ?_⟩
  rintro ⟨v, hv⟩
  obtain ⟨before, after, hpath, hbefore⟩ := h.reach hv
  have hsome := find_complete after hbefore hv
  rw [← hpath] at hsome
  obtain ⟨j, hj⟩ := Option.isSome_iff_exists.mp hsome
  obtain ⟨w, hw⟩ := find_sound hj
  rw [hj, h.unique hv hw]

theorem WellPlaced.find_eq_none_iff {path : K → List Nat} (h : WellPlaced path slots) :
    find slots key (path key) = none ↔ ∀ v, ¬ Holds slots key v := by
  rw [Option.eq_none_iff_forall_ne_some]
  constructor
  · rintro hnone v ⟨i, hi⟩
    exact hnone i ((h.find_iff i).mpr ⟨v, hi⟩)
  · intro habsent i hi
    obtain ⟨v, hv⟩ := (h.find_iff i).mp hi
    exact habsent v ⟨i, hv⟩

theorem place_eq_none_iff (value : V) {path : List Nat} (h : (find slots key path).isSome = true) :
    place slots key value path = none ↔ shadowed slots key path = false := by
  induction path with
  | nil => exact ⟨fun _ => rfl, fun _ => rfl⟩
  | cons i path ih =>
    unfold find at h
    unfold place shadowed
    cases hslot : slots[i]? with
    | none =>
      rw [hslot] at h
      exact absurd h Bool.false_ne_true
    | some s =>
      rw [hslot] at h
      cases s with
      | unused => exact absurd h Bool.false_ne_true
      | tombstone =>
        dsimp only at h ⊢
        rw [h]
        exact ⟨nofun, nofun⟩
      | live k v =>
        dsimp only at h ⊢
        split
        · exact ⟨fun _ => rfl, fun _ => rfl⟩
        · next hk =>
          rw [if_neg hk] at h
          exact ih h

theorem place_sound {path : List Nat} {slots' : List (Slot K V)}
    (h : place slots key value path = some slots') :
    ∃ before i after s, path = before ++ i :: after ∧
      (∀ j ∈ before, ∃ s, slots[j]? = some s ∧ s ≠ .unused) ∧
      slots[i]? = some s ∧ s.isLive = false ∧ slots' = slots.set i (.live key value) := by
  induction path with
  | nil => exact absurd h.symm (Option.some_ne_none slots')
  | cons i path ih =>
    unfold place at h
    split at h
    · next k v hslot =>
      split at h
      · exact absurd h.symm (Option.some_ne_none slots')
      · obtain ⟨before, j, after, s, rfl, hbefore, hrest⟩ := ih h
        refine ⟨i :: before, j, after, s, rfl, ?_, hrest⟩
        intro j' hj'
        rcases List.mem_cons.mp hj' with rfl | hj'
        · exact ⟨.live k v, hslot, nofun⟩
        · exact hbefore j' hj'
    · next s hlive hslot =>
      have hs : s.isLive = false := by
        cases s with
        | live k v => exact absurd rfl (hlive k v)
        | unused => rfl
        | tombstone => rfl
      exact ⟨[], i, path, s, rfl, fun j hj => absurd hj List.not_mem_nil, hslot, hs,
        (Option.some.inj h).symm⟩
    · exact absurd h.symm (Option.some_ne_none slots')

theorem place_complete {path : List Nat} (value : V) (habsent : ∀ v, ¬ Holds slots key v)
    (hpath : ∀ i ∈ path, i < slots.length)
    (hfree : ∃ i ∈ path, ∃ s, slots[i]? = some s ∧ s.isLive = false) :
    ∃ slots', place slots key value path = some slots' := by
  induction path with
  | nil =>
    obtain ⟨i, hi, -⟩ := hfree
    exact absurd hi List.not_mem_nil
  | cons i path ih =>
    unfold place
    cases hslot : slots[i]? with
    | none =>
      exact absurd (hpath i List.mem_cons_self)
        (Nat.not_lt.mpr (List.getElem?_eq_none_iff.mp hslot))
    | some s =>
      cases s with
      | unused => exact ⟨_, rfl⟩
      | tombstone => exact ⟨_, rfl⟩
      | live k v =>
        have hk : k ≠ key := by
          rintro rfl
          exact habsent v ⟨i, hslot⟩
        dsimp only
        rw [if_neg hk]
        refine ih (fun j hj => hpath j (List.mem_cons_of_mem i hj)) ?_
        obtain ⟨j, hj, s, hsj, hlive⟩ := hfree
        rcases List.mem_cons.mp hj with rfl | hj
        · rw [hslot] at hsj
          rw [← Option.some.inj hsj] at hlive
          exact absurd hlive Bool.noConfusion
        · exact ⟨j, hj, s, hsj, hlive⟩

end Search

/-! ## One slot changes -/

section Change

variable {path : K → List Nat} {slots : List (Slot K V)} {i : Nat} {key : K}

theorem getElem?_set_same {s t : Slot K V} (h : slots[i]? = some s) :
    (slots.set i t)[i]? = some t := by
  rw [List.getElem?_set_self]
  exact (List.getElem?_eq_some_iff.mp h).1

theorem getElem?_set_other {j : Nat} (t : Slot K V) (h : j ≠ i) :
    (slots.set i t)[j]? = slots[j]? := List.getElem?_set_ne h.symm

theorem used_set {t : Slot K V} (ht : t ≠ .unused) {before : List Nat}
    (h : ∀ j ∈ before, ∃ s, slots[j]? = some s ∧ s ≠ .unused) :
    ∀ j ∈ before, ∃ s, (slots.set i t)[j]? = some s ∧ s ≠ .unused := by
  intro j hj
  obtain ⟨s, hs, hused⟩ := h j hj
  by_cases hji : j = i
  · rw [hji] at hs ⊢
    exact ⟨t, getElem?_set_same hs, ht⟩
  · exact ⟨s, (getElem?_set_other t hji).trans hs, hused⟩

theorem WellPlaced.erase (h : WellPlaced path slots) {value : V} (hi : slots[i]? = some (.live key value)) :
    WellPlaced path (slots.set i .tombstone) ∧
      ∀ k v, Holds (slots.set i .tombstone) k v ↔ k ≠ key ∧ Holds slots k v := by
  have hold : ∀ {j : Nat} {k : K} {v : V},
      (slots.set i .tombstone)[j]? = some (.live k v) → j ≠ i ∧ slots[j]? = some (.live k v) := by
    intro j k v hj
    rcases SlotTable.getElem?_set_some hj with ⟨-, hs⟩ | hs
    · exact Slot.noConfusion rfl rfl (heq_of_eq hs)
    · exact hs
  refine ⟨⟨?_, ?_⟩, ?_⟩
  · intro j j' k v w hj hj'
    exact h.unique (hold hj).2 (hold hj').2
  · intro j k v hj
    obtain ⟨before, after, hpath, hbefore⟩ := h.reach (hold hj).2
    exact ⟨before, after, hpath, used_set (t := .tombstone) nofun hbefore⟩
  · intro k v
    constructor
    · rintro ⟨j, hj⟩
      obtain ⟨hji, hs⟩ := hold hj
      refine ⟨?_, j, hs⟩
      rintro rfl
      exact hji (h.unique hs hi)
    · rintro ⟨hk, j, hj⟩
      refine ⟨j, ?_⟩
      rw [getElem?_set_other, hj]
      rintro rfl
      rw [hi] at hj
      exact hk (Slot.live.inj (Option.some.inj hj)).1.symm

theorem WellPlaced.insert (h : WellPlaced path slots) {s : Slot K V} (value : V)
    (habsent : ∀ v, ¬ Holds slots key v) (hi : slots[i]? = some s) (hlive : s.isLive = false)
    {before after : List Nat} (hpath : path key = before ++ i :: after)
    (hbefore : ∀ j ∈ before, ∃ s, slots[j]? = some s ∧ s ≠ .unused) :
    WellPlaced path (slots.set i (.live key value)) ∧
      ∀ k v, Holds (slots.set i (.live key value)) k v ↔
        (k = key ∧ v = value) ∨ Holds slots k v := by
  have hnew := getElem?_set_same (t := Slot.live key value) hi
  refine ⟨⟨?_, ?_⟩, ?_⟩
  · intro j j' k v w hj hj'
    rcases SlotTable.getElem?_set_some hj with ⟨rfl, hs⟩ | ⟨-, hs⟩ <;>
      rcases SlotTable.getElem?_set_some hj' with ⟨rfl, hs'⟩ | ⟨-, hs'⟩
    · rfl
    · rw [(Slot.live.inj hs).1] at hs'
      exact absurd ⟨j', hs'⟩ (habsent w)
    · rw [(Slot.live.inj hs').1] at hs
      exact absurd ⟨j, hs⟩ (habsent v)
    · exact h.unique hs hs'
  · intro j k v hj
    rcases SlotTable.getElem?_set_some hj with ⟨rfl, hs⟩ | ⟨-, hs⟩
    · rw [(Slot.live.inj hs).1]
      exact ⟨before, after, hpath, used_set (t := .live key value) nofun hbefore⟩
    · obtain ⟨before', after', hpath', hbefore'⟩ := h.reach hs
      exact ⟨before', after', hpath', used_set (t := .live key value) nofun hbefore'⟩
  · intro k v
    constructor
    · rintro ⟨j, hj⟩
      rcases SlotTable.getElem?_set_some hj with ⟨-, hs⟩ | ⟨-, hs⟩
      · exact Or.inl ⟨(Slot.live.inj hs).1, (Slot.live.inj hs).2⟩
      · exact Or.inr ⟨j, hs⟩
    · rintro (⟨rfl, rfl⟩ | ⟨j, hj⟩)
      · exact ⟨i, hnew⟩
      · refine ⟨j, ?_⟩
        rw [getElem?_set_other, hj]
        rintro rfl
        rw [hi] at hj
        rw [Option.some.inj hj] at hlive
        exact absurd hlive Bool.noConfusion

theorem mem_bindings {k : K} {v : V} : (k, v) ∈ bindings slots ↔ Holds slots k v := by
  unfold bindings Holds
  rw [List.mem_filterMap]
  constructor
  · rintro ⟨s, hs, hb⟩
    obtain ⟨j, hj⟩ := List.mem_iff_getElem?.mp hs
    cases s with
    | unused => exact absurd hb.symm (Option.some_ne_none _)
    | tombstone => exact absurd hb.symm (Option.some_ne_none _)
    | live k' v' =>
      obtain ⟨rfl, rfl⟩ := Prod.mk.inj (Option.some.inj hb)
      exact ⟨j, hj⟩
  · rintro ⟨j, hj⟩
    exact ⟨.live k v, List.mem_of_getElem? hj, rfl⟩

theorem WellPlaced.nodup (h : WellPlaced path slots) : ((bindings slots).map Prod.fst).Nodup := by
  unfold bindings List.Nodup
  rw [List.pairwise_map, List.pairwise_filterMap, List.pairwise_iff_getElem]
  intro j j' hj hj' hlt b hb b' hb' hsame
  have hslot := List.getElem?_eq_getElem hj
  have hslot' := List.getElem?_eq_getElem hj'
  cases hs : slots[j] with
  | unused =>
    rw [hs] at hb
    exact absurd hb.symm (Option.some_ne_none b)
  | tombstone =>
    rw [hs] at hb
    exact absurd hb.symm (Option.some_ne_none b)
  | live k v =>
    cases hs' : slots[j'] with
    | unused =>
      rw [hs'] at hb'
      exact absurd hb'.symm (Option.some_ne_none b')
    | tombstone =>
      rw [hs'] at hb'
      exact absurd hb'.symm (Option.some_ne_none b')
    | live k' v' =>
      rw [hs] at hb hslot
      rw [hs'] at hb' hslot'
      rw [← Option.some.inj hb, ← Option.some.inj hb'] at hsame
      have hk : k = k' := hsame
      rw [hk] at hslot
      exact absurd (h.unique hslot hslot') (Nat.ne_of_lt hlt)

theorem length_bindings : (bindings slots).length = slots.countP Slot.isLive := by
  unfold bindings
  induction slots with
  | nil => rfl
  | cons s slots ih =>
    cases s with
    | unused => rw [List.filterMap_cons_none rfl, List.countP_cons_of_neg Bool.false_ne_true, ih]
    | tombstone => rw [List.filterMap_cons_none rfl, List.countP_cons_of_neg Bool.false_ne_true, ih]
    | live k v =>
      rw [List.filterMap_cons_some (f := Slot.binding?) rfl, List.countP_cons_of_pos rfl,
        List.length_cons, ih]

theorem countP_insert {s : Slot K V} (value : V) (hi : slots[i]? = some s) (hlive : s.isLive = false) :
    (slots.set i (.live key value)).countP Slot.isLive = slots.countP Slot.isLive + 1 := by
  obtain ⟨hlt, hs⟩ := List.getElem?_eq_some_iff.mp hi
  rw [List.countP_set hlt, hs, hlive]
  rfl

theorem countP_erase {value : V} (hi : slots[i]? = some (.live key value)) :
    (slots.set i .tombstone).countP Slot.isLive + 1 = slots.countP Slot.isLive := by
  obtain ⟨hlt, hs⟩ := List.getElem?_eq_some_iff.mp hi
  have hpos : 0 < slots.countP Slot.isLive :=
    List.countP_pos_iff.mpr ⟨.live key value, List.mem_of_getElem? hi, rfl⟩
  rw [List.countP_set hlt, hs]
  exact Nat.succ_pred_eq_of_pos hpos

theorem exists_not_live (h : slots.countP Slot.isLive < slots.length) :
    ∃ i : Nat, i < slots.length ∧ ∃ s, slots[i]? = some s ∧ s.isLive = false := by
  by_contra hnone
  refine absurd (List.countP_eq_length.mpr fun s hs => ?_) (Nat.ne_of_lt h)
  obtain ⟨i, hi⟩ := List.mem_iff_getElem?.mp hs
  by_contra hlive
  exact hnone ⟨i, (List.getElem?_eq_some_iff.mp hi).1, s, hi, Bool.eq_false_iff.mpr hlive⟩

theorem WellPlaced.unused (path : K → List Nat) (n : Nat) :
    WellPlaced path (List.replicate n (Slot.unused (K := K) (V := V))) ∧
      ∀ k v, ¬ Holds (List.replicate n (Slot.unused (K := K) (V := V))) k v := by
  have hnone : ∀ (i : Nat) (k : K) (v : V),
      (List.replicate n (Slot.unused (K := K) (V := V)))[i]? ≠ some (.live k v) := by
    intro i k v hi
    exact absurd (List.eq_of_mem_replicate (List.mem_of_getElem? hi)) nofun
  exact ⟨⟨fun hi _ => absurd hi (hnone _ _ _), fun hi => absurd hi (hnone _ _ _)⟩,
    fun k v ⟨i, hi⟩ => hnone i k v hi⟩

end Change

section Table

variable [DecidableEq K] {path : K → List Nat} {slots : List (Slot K V)} {key : K}

theorem WellPlaced.place (h : WellPlaced path slots) (value : V) (habsent : ∀ v, ¬ Holds slots key v)
    (hall : ∀ i, i ∈ path key ↔ i < slots.length)
    (hroom : slots.countP Slot.isLive < slots.length) :
    ∃ slots', OpenAddressing.place slots key value (path key) = some slots' ∧
      WellPlaced path slots' ∧ slots'.length = slots.length ∧
      slots'.countP Slot.isLive = slots.countP Slot.isLive + 1 ∧
      ∀ k v, Holds slots' k v ↔ (k = key ∧ v = value) ∨ Holds slots k v := by
  obtain ⟨i, hi, hfree⟩ := exists_not_live hroom
  obtain ⟨slots', hplace⟩ := place_complete value habsent (fun j hj => (hall j).mp hj)
    ⟨i, (hall i).mpr hi, hfree⟩
  obtain ⟨before, j, after, s, hpath, hbefore, hj, hlive, rfl⟩ := place_sound hplace
  obtain ⟨hwell, hholds⟩ := h.insert value habsent hj hlive hpath hbefore
  exact ⟨_, hplace, hwell, List.length_set, countP_insert value hj hlive, hholds⟩

def reinsert (path : K → List Nat) (bs : List (K × V)) (slots : List (Slot K V)) :
    List (Slot K V) :=
  bs.foldl (fun slots b => (OpenAddressing.place slots b.1 b.2 (path b.1)).getD slots) slots

theorem WellPlaced.reinsert (h : WellPlaced path slots) {bs : List (K × V)}
    (hnodup : (bs.map Prod.fst).Nodup) (habsent : ∀ b ∈ bs, ∀ v, ¬ Holds slots b.1 v)
    (hall : ∀ k i, i ∈ path k ↔ i < slots.length)
    (hroom : slots.countP Slot.isLive + bs.length ≤ slots.length) :
    WellPlaced path (OpenAddressing.reinsert path bs slots) ∧
      (OpenAddressing.reinsert path bs slots).length = slots.length ∧
      (OpenAddressing.reinsert path bs slots).countP Slot.isLive =
        slots.countP Slot.isLive + bs.length ∧
      ∀ k v, Holds (OpenAddressing.reinsert path bs slots) k v ↔
        (k, v) ∈ bs ∨ Holds slots k v := by
  induction bs generalizing slots with
  | nil =>
    refine ⟨h, rfl, rfl, fun k v => ⟨Or.inr, ?_⟩⟩
    rintro (hmem | hholds)
    · exact absurd hmem List.not_mem_nil
    · exact hholds
  | cons b bs ih =>
    rw [List.length_cons] at hroom
    rw [List.map_cons, List.nodup_cons] at hnodup
    obtain ⟨slots', hplace, hwell, hlength, hcount, hholds⟩ :=
      h.place b.2 (habsent b List.mem_cons_self) (hall b.1) (by omega)
    have hrun : OpenAddressing.reinsert path (b :: bs) slots =
        OpenAddressing.reinsert path bs slots' := by
      unfold OpenAddressing.reinsert
      rw [List.foldl_cons, hplace]
      rfl
    obtain ⟨hwell', hlength', hcount', hholds'⟩ := ih hwell hnodup.2 (by
      rintro b' hb' v hv
      rcases (hholds b'.1 v).mp hv with ⟨hk, -⟩ | hv
      · exact hnodup.1 (List.mem_map.mpr ⟨b', hb', hk⟩)
      · exact habsent b' (List.mem_cons_of_mem b hb') v hv)
      (fun k i => by rw [hall, hlength]) (by omega)
    rw [hrun]
    refine ⟨hwell', hlength'.trans hlength, ?_, fun k v => ?_⟩
    · rw [hcount', hcount, List.length_cons]
      omega
    · rw [hholds', hholds, List.mem_cons]
      constructor
      · rintro (hmem | ⟨hk, hv⟩ | hold)
        · exact Or.inl (Or.inr hmem)
        · exact Or.inl (Or.inl (Prod.ext hk hv))
        · exact Or.inr hold
      · rintro ((hb | hmem) | hold)
        · exact Or.inr (Or.inl ⟨congrArg Prod.fst hb, congrArg Prod.snd hb⟩)
        · exact Or.inl hmem
        · exact Or.inr (Or.inr hold)

end Table

def walk (n : Nat) : Nat → Nat → List Nat
  | 0, _ => []
  | m + 1, i => i :: walk n m (if i + 1 ≥ n then 0 else i + 1)

theorem walk_eq {n i : Nat} (hi : i < n) (m : Nat) :
    walk n m i = (List.range m).map (fun d => (i + d) % n) := by
  induction m generalizing i with
  | zero => rfl
  | succ m ih =>
    have hnext : (if i + 1 ≥ n then 0 else i + 1) = (i + 1) % n := by
      split
      · next hwrap => rw [show i + 1 = n by omega, Nat.mod_self]
      · next hle => rw [Nat.mod_eq_of_lt (by omega)]
    unfold walk
    rw [hnext, ih (Nat.mod_lt _ (by omega)), List.range_succ_eq_map, List.map_cons, List.map_map,
      show (i + 0) % n = i from Nat.mod_eq_of_lt hi]
    refine congrArg (List.cons i) (List.map_congr_left fun d hd => ?_)
    show ((i + 1) % n + d) % n = (i + (d + 1)) % n
    rw [Nat.mod_add_mod, Nat.add_assoc, Nat.add_comm 1 d]

theorem mem_walk_iff {n i : Nat} (hi : i < n) (j : Nat) : j ∈ walk n n i ↔ j < n := by
  rw [walk_eq hi, List.mem_map]
  constructor
  · rintro ⟨d, -, rfl⟩
    exact Nat.mod_lt _ (by omega)
  · intro hj
    rcases Nat.lt_or_ge j i with hlt | hge
    · refine ⟨j + n - i, List.mem_range.mpr (by omega), ?_⟩
      rw [show i + (j + n - i) = j + n by omega, Nat.add_mod_right, Nat.mod_eq_of_lt hj]
    · refine ⟨j - i, List.mem_range.mpr (by omega), ?_⟩
      rw [show i + (j - i) = j by omega, Nat.mod_eq_of_lt hj]

end NextBSD.OpenAddressing
