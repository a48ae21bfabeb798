import NextBSD.Libpkg.Manifest.Encoding

/-!
# Canonical paths

`pkg_absolutepath` keeps an absolute path without an empty component, `.` or `..` if there is room
for it, and percent encoding keeps it of that kind.
-/

namespace NextBSD.Libpkg.Manifest

/-- A component that `pkg_absolutepath` appends. -/
structure Proper (cur : Bytes) : Prop where
  ne_nil : cur ≠ []
  ne_dot : cur ≠ [46]
  ne_dotdot : cur ≠ [46, 46]
  no_slash : 47 ∉ cur

def joinPath (comps : List Bytes) : Bytes := comps.flatMap (fun cur => 47 :: cur)

def Canonical (path : Bytes) : Prop :=
  path = [47] ∨ ∃ comps, comps ≠ [] ∧ (∀ cur ∈ comps, Proper cur) ∧ path = joinPath comps

variable {comps : List Bytes}

theorem joinPath_cons (cur : Bytes) (comps : List Bytes) :
    joinPath (cur :: comps) = 47 :: cur ++ joinPath comps := rfl

theorem joinPath_ne_nil (h : comps ≠ []) : joinPath comps ≠ [] := by
  cases comps with
  | nil => exact absurd rfl h
  | cons cur comps => exact nofun

theorem intercalate_joinPath (h : comps ≠ []) :
    List.intercalate [47] ([] :: comps) = joinPath comps := by
  have hcons (cur : Bytes) (comps : List Bytes) :
      List.intercalate [47] (cur :: comps) = cur ++ joinPath comps := by
    induction comps generalizing cur with
    | nil => simp [List.intercalate, joinPath]
    | cons cur' comps ih =>
      rw [joinPath_cons, List.cons_append, ← ih cur']
      simp [List.intercalate, List.intersperse]
  exact hcons [] comps

theorem splitOn_joinPath (h : comps ≠ []) (hproper : ∀ cur ∈ comps, Proper cur) :
    (joinPath comps).splitOn 47 = [] :: comps := by
  rw [← intercalate_joinPath h]
  refine List.splitOn_intercalate 47 (fun cur hcur => ?_) (List.cons_ne_nil _ _)
  cases List.mem_cons.mp hcur with
  | inl hnil =>
    rw [hnil]
    exact List.not_mem_nil
  | inr hcur => exact (hproper cur hcur).no_slash

theorem foldlM_appendComponent {size : Nat} {dest : Bytes} (hdest : dest.length < size)
    (hproper : ∀ cur ∈ comps, Proper cur) :
    comps.foldlM (appendComponent size) dest =
      if (dest ++ joinPath comps).length < size then some (dest ++ joinPath comps) else none := by
  induction comps generalizing dest with
  | nil =>
    show some dest = _
    rw [show joinPath [] = [] from rfl, List.append_nil, if_pos hdest]
  | cons cur comps ih =>
    have hcur := hproper cur List.mem_cons_self
    have happend : dest ++ joinPath (cur :: comps) = (dest ++ 47 :: cur) ++ joinPath comps := by
      rw [joinPath_cons, List.append_assoc]
    have hlen : (dest ++ 47 :: cur).length = dest.length + 1 + cur.length := by
      rw [List.length_append, List.length_cons]
      omega
    rw [List.foldlM_cons, happend]
    unfold appendComponent
    rw [if_neg hcur.ne_nil, if_neg hcur.ne_dot, if_neg hcur.ne_dotdot]
    by_cases hroom : size ≤ dest.length + 1 + cur.length
    · rw [if_pos hroom, if_neg (by rw [List.length_append]; omega)]
      rfl
    · rw [if_neg hroom]
      exact ih (by omega) (fun cur hcur => hproper cur (List.mem_cons_of_mem _ hcur))

theorem pkgAbsolutepath_joinPath (sys : System) {size : Nat} (hsize : 0 < size) (h : comps ≠ [])
    (hproper : ∀ cur ∈ comps, Proper cur) :
    pkgAbsolutepath sys (joinPath comps) size =
      if (joinPath comps).length < size then some (joinPath comps) else none := by
  have habsolute : (joinPath comps).head? = some 47 := by
    cases comps with
    | nil => exact absurd rfl h
    | cons cur comps => rfl
  unfold pkgAbsolutepath
  rw [if_neg (fun hrel => hrel.2 habsolute), splitOn_joinPath h hproper]
  show (comps.foldlM (appendComponent size) [] >>= _) = _
  rw [foldlM_appendComponent hsize hproper, List.nil_append]
  by_cases hfits : (joinPath comps).length < size
  · rw [if_pos hfits]
    exact if_neg (joinPath_ne_nil h)
  · rw [if_neg hfits]
    rfl

theorem pkgAbsolutepath_canonical (sys : System) {path : Bytes} {size : Nat} (hsize : 1 < size)
    (h : Canonical path) :
    pkgAbsolutepath sys path size = if path.length < size then some path else none := by
  cases h with
  | inl hroot =>
    subst hroot
    unfold pkgAbsolutepath
    have hsplit : ([47] : Bytes).splitOn 47 = [[], []] := by decide
    rw [if_neg (fun hrel => hrel.2 rfl), hsplit, if_pos (show [(47 : UInt8)].length < size from hsize)]
    show (if size ≤ 1 then none else some [47]) = _
    rw [if_neg (by omega)]
  | inr hcomps =>
    obtain ⟨comps, hne, hproper, rfl⟩ := hcomps
    exact pkgAbsolutepath_joinPath sys (by omega) hne hproper

theorem slash_of_mem_encodeByte {c : UInt8} (h : 47 ∈ encodeByte c) : c = 47 := by
  have hhex : ∀ n : Fin 16, (47 : UInt8) ≠ hexDigit n := by decide
  unfold encodeByte at h
  split_ifs at h
  · exact (List.mem_singleton.mp h).symm
  · have hc : c.toNat < 256 := c.toNat_lt
    have hhigh := hhex ⟨c.toNat / 16, by omega⟩
    have hlow := hhex ⟨c.toNat % 16, by omega⟩
    have hpct : (47 : UInt8) ≠ 37 := by decide
    simp only [List.mem_cons, List.not_mem_nil, or_false] at h
    rcases h with h | h | h
    · exact absurd h hpct
    · exact absurd h hhigh
    · exact absurd h hlow

theorem Proper.urlencode {cur : Bytes} (h : Proper cur) : Proper (urlencode cur) where
  ne_nil hnil := h.ne_nil (urlencode_injective hnil)
  ne_dot hdot := h.ne_dot (urlencode_injective hdot)
  ne_dotdot hdot := h.ne_dotdot (urlencode_injective hdot)
  no_slash hslash := by
    obtain ⟨c, hc, hbyte⟩ := List.mem_flatMap.mp hslash
    rw [slash_of_mem_encodeByte hbyte] at hc
    exact h.no_slash hc

theorem urlencode_joinPath (comps : List Bytes) :
    urlencode (joinPath comps) = joinPath (comps.map urlencode) := by
  induction comps with
  | nil => rfl
  | cons cur comps ih =>
    rw [List.map_cons, joinPath_cons, joinPath_cons, ← ih, List.cons_append, urlencode_cons]
    unfold urlencode
    rw [List.flatMap_append]
    rfl

theorem Canonical.urlencode {path : Bytes} (h : Canonical path) : Canonical (urlencode path) := by
  cases h with
  | inl hroot =>
    rw [hroot]
    exact Or.inl rfl
  | inr hcomps =>
    obtain ⟨comps, hne, hproper, rfl⟩ := hcomps
    refine Or.inr ⟨comps.map Manifest.urlencode, fun hnil => hne (List.map_eq_nil_iff.mp hnil),
      fun cur hcur => ?_, urlencode_joinPath comps⟩
    obtain ⟨cur', hcur', rfl⟩ := List.mem_map.mp hcur
    exact (hproper cur' hcur').urlencode

end NextBSD.Libpkg.Manifest
