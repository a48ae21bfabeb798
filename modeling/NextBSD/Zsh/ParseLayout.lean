import Mathlib.Data.List.Nodup
import NextBSD.Zsh.ParseRun

/-!
# Where the items are

The words of the items are the words of the buffer, one item after the other.  A here-document
that still waits for its text knows where its redirection is, while words come and go before it.
-/

namespace NextBSD.Zsh

theorem Item.induct {P : Item → Prop} (word : ∀ w, P (.word w)) (str : ∀ w s, P (.str w s))
    (redir : ∀ r, P (.redir r)) (func : ∀ h body, (∀ it ∈ body, P it) → P (.func h body)) :
    ∀ it, P it := by
  intro it
  refine Item.rec (motive_1 := P) (motive_2 := fun items => ∀ it ∈ items, P it) word str redir func
    ?_ ?_ it
  · exact fun it hit => absurd hit List.not_mem_nil
  · intro it items hhead htail it' hit'
    rcases List.mem_cons.mp hit' with rfl | hit'
    · exact hhead
    · exact htail it' hit'

theorem wordsOf_append (A B : List Item) : wordsOf (A ++ B) = wordsOf A ++ wordsOf B := by
  induction A with
  | nil => rfl
  | cons it A ih =>
    show it.words ++ wordsOf (A ++ B) = it.words ++ wordsOf A ++ wordsOf B
    rw [ih, List.append_assoc]

theorem marksOf_append (A B : List Item) : marksOf (A ++ B) = marksOf A ++ marksOf B := by
  induction A with
  | nil => rfl
  | cons it A ih =>
    show it.marks ++ marksOf (A ++ B) = it.marks ++ marksOf A ++ marksOf B
    rw [ih, List.append_assoc]

theorem wordsOf_singleton (it : Item) : wordsOf [it] = it.words := List.append_nil _

theorem marksOf_singleton (it : Item) : marksOf [it] = it.marks := List.append_nil _

theorem updateAll_eq_map (k : Nat) (f : Redir → Redir) (items : List Item) :
    updateAll k f items = items.map (Item.update k f) := by
  induction items with
  | nil => rfl
  | cons it items ih =>
    show it.update k f :: updateAll k f items = _
    rw [ih]
    rfl

theorem wordsOf_map_word (l : List Wordcode) : wordsOf (l.map Item.word) = l := by
  induction l with
  | nil => rfl
  | cons w l ih =>
    show w :: wordsOf (l.map Item.word) = w :: l
    rw [ih]

theorem marksOf_map_word (l : List Wordcode) :
    marksOf (l.map Item.word) = List.replicate l.length none := by
  induction l with
  | nil => rfl
  | cons w l ih =>
    show none :: marksOf (l.map Item.word) = none :: List.replicate l.length none
    rw [ih]

theorem wordsOf_names (names : List (Wordcode × CStr)) :
    wordsOf (names.map fun n => .str n.1 n.2) = names.map Prod.fst := by
  induction names with
  | nil => rfl
  | cons n names ih =>
    show n.1 :: wordsOf _ = n.1 :: names.map Prod.fst
    rw [ih]

theorem marksOf_names (names : List (Wordcode × CStr)) :
    marksOf (names.map fun n => .str n.1 n.2) = List.replicate names.length none := by
  induction names with
  | nil => rfl
  | cons n names ih =>
    show none :: marksOf _ = none :: List.replicate names.length none
    rw [ih]

theorem Redir.five_le_length (r : Redir) : 5 ≤ r.words.length := by
  unfold Redir.words
  rw [List.length_append]
  exact Nat.le_add_right 5 _

theorem Redir.words_ne_nil (r : Redir) : r.words.length ≠ 0 := by
  have h := r.five_le_length
  omega

theorem length_marksOf_of {items : List Item}
    (h : ∀ it ∈ items, it.marks.length = it.words.length) :
    (marksOf items).length = (wordsOf items).length := by
  induction items with
  | nil => rfl
  | cons it items ih =>
    show (it.marks ++ marksOf items).length = (it.words ++ wordsOf items).length
    rw [List.length_append, List.length_append, h it List.mem_cons_self,
      ih fun it hit => h it (List.mem_cons_of_mem _ hit)]

theorem Item.length_marks (it : Item) : it.marks.length = it.words.length := by
  induction it using Item.induct with
  | word w => rfl
  | str w s => rfl
  | redir r =>
    show (some r :: List.replicate _ none).length = r.words.length
    have h := r.words_ne_nil
    rw [List.length_cons, List.length_replicate]
    omega
  | func h body ih =>
    show (List.replicate _ none ++ marksOf body).length = (h.words ++ wordsOf body).length
    rw [List.length_append, List.length_append, List.length_replicate, length_marksOf_of ih]

theorem length_marksOf (items : List Item) : (marksOf items).length = (wordsOf items).length :=
  length_marksOf_of fun it _ => it.length_marks

theorem mem_marksOf {items : List Item} {m : Option Redir} :
    m ∈ marksOf items ↔ ∃ it ∈ items, m ∈ it.marks := by
  induction items with
  | nil =>
    refine ⟨fun h => absurd h List.not_mem_nil, fun h => ?_⟩
    obtain ⟨it, hit, -⟩ := h
    exact absurd hit List.not_mem_nil
  | cons it items ih =>
    show m ∈ it.marks ++ marksOf items ↔ _
    rw [List.mem_append, ih, List.exists_mem_cons_iff]

theorem Item.update_of_forall {k : Nat} (f : Redir → Redir) {it : Item}
    (h : ∀ r, some r ∈ it.marks → r.id ≠ k) : it.update k f = it := by
  induction it using Item.induct with
  | word w => rfl
  | str w s => rfl
  | redir r =>
    show Item.redir (if r.id = k then f r else r) = .redir r
    rw [if_neg (h r List.mem_cons_self)]
  | func hd body ih =>
    show Item.func hd (updateAll k f body) = .func hd body
    rw [updateAll_eq_map]
    have hbody : body.map (Item.update k f) = body.map id :=
      List.map_congr_left fun it hit => ih it hit fun r hr =>
        h r (List.mem_append_right _ (mem_marksOf.mpr ⟨it, hit, hr⟩))
    rw [hbody, List.map_id]

theorem updateAll_of_forall {k : Nat} (f : Redir → Redir) {items : List Item}
    (h : ∀ r, some r ∈ marksOf items → r.id ≠ k) : updateAll k f items = items := by
  rw [updateAll_eq_map]
  have hall : items.map (Item.update k f) = items.map id :=
    List.map_congr_left fun it hit =>
      it.update_of_forall f fun r hr => h r (mem_marksOf.mpr ⟨it, hit, hr⟩)
  rw [hall, List.map_id]

theorem updateAll_middle {k : Nat} (f : Redir → Redir) {A B : List Item} {r : Redir} (hr : r.id = k)
    (h : ∀ s, some s ∈ marksOf A ∨ some s ∈ marksOf B → s.id ≠ k) :
    updateAll k f (A ++ .redir r :: B) = A ++ .redir (f r) :: B := by
  have hA := updateAll_of_forall f fun s hs => h s (.inl hs)
  have hB := updateAll_of_forall f fun s hs => h s (.inr hs)
  rw [updateAll_eq_map] at hA hB ⊢
  rw [List.map_append, List.map_cons, hA, hB]
  show A ++ .redir (if r.id = k then f r else r) :: B = _
  rw [if_pos hr]

def outerWords : List OpenFunction → List Wordcode
  | [] => []
  | f :: functions => outerWords functions ++ wordsOf f.before ++ f.head.words

def outerMarks : List OpenFunction → List (Option Redir)
  | [] => []
  | f :: functions =>
    outerMarks functions ++ marksOf f.before ++ List.replicate f.head.words.length none

theorem length_outerMarks (functions : List OpenFunction) :
    (outerMarks functions).length = (outerWords functions).length := by
  induction functions with
  | nil => rfl
  | cons f functions ih =>
    unfold outerMarks outerWords
    rw [List.length_append, List.length_append, List.length_append, List.length_append,
      List.length_replicate, length_marksOf, ih]

theorem Header.length_words (h : Header) : h.words.length = h.names.length + 6 := by
  unfold Header.words
  simp only [List.length_cons, List.length_append, List.length_map, List.length_nil]

theorem mem_outerMarks {functions : List OpenFunction} {f : OpenFunction} {m : Option Redir}
    (hf : f ∈ functions) (hm : m ∈ marksOf f.before) : m ∈ outerMarks functions := by
  induction functions with
  | nil => exact absurd hf List.not_mem_nil
  | cons g functions ih =>
    unfold outerMarks
    rw [List.mem_append, List.mem_append]
    rcases List.mem_cons.mp hf with rfl | hf
    · exact .inl (.inr hm)
    · exact .inl (.inl (ih hf))

def Parse.marks (st : Parse) : List (Option Redir) := outerMarks st.functions ++ marksOf st.items

/-! ## Here-documents that wait -/

section Marked

/-- What holds of the redirections in a buffer and of the here-documents that wait for their
texts. -/
structure Marked (marks : List (Option Redir)) (hdocs : List Heredocs) (redirs : Nat) : Prop where
  unique : (marks.filterMap (Option.map Redir.id)).Nodup
  fresh : ∀ r, some r ∈ marks → r.id < redirs
  place : ∀ h ∈ hdocs, ∃ r, marks[h.pc]? = some (some r) ∧ r.id = h.redir ∧ r.term = h.str
  waits : ∀ r, some r ∈ marks → r.doc = none → ∃ h ∈ hdocs, h.redir = r.id

variable {X Y N : List (Option Redir)} {hdocs : List Heredocs} {redirs : Nat} {r r' : Redir}

theorem Marked.nil (redirs : Nat) : Marked [] [] redirs where
  unique := List.nodup_nil
  fresh _ hr := absurd hr List.not_mem_nil
  place _ hh := absurd hh List.not_mem_nil
  waits _ hr := absurd hr List.not_mem_nil

theorem getElem?_insert {α : Type} {X Y : List α} (N : List α) {i : Nat} {a : α}
    (h : (X ++ Y)[i]? = some a) :
    (X ++ N ++ Y)[if X.length ≤ i then i + N.length else i]? = some a := by
  by_cases hi : X.length ≤ i
  · rw [if_pos hi]
    rw [List.getElem?_append_right hi] at h
    rw [List.getElem?_append_right (by rw [List.length_append]; omega), List.length_append]
    rw [← h]
    congr 1
    omega
  · rw [if_neg hi]
    rw [List.getElem?_append_left (by omega)] at h
    rw [List.append_assoc, List.getElem?_append_left (by omega), h]

theorem getElem?_erase {α : Type} {X Y : List α} {a b : α} {i : Nat}
    (h : (X ++ b :: Y)[i]? = some a) (hne : a ≠ b) :
    (X ++ Y)[if X.length ≤ i then i - 1 else i]? = some a := by
  by_cases hi : X.length ≤ i
  · rw [List.getElem?_append_right hi] at h
    obtain ⟨j, hj⟩ := Nat.exists_eq_add_of_le hi
    cases j with
    | zero =>
      rw [hj, Nat.add_zero, Nat.sub_self] at h
      exact absurd (Option.some.inj h).symm hne
    | succ j =>
      rw [if_pos hi, List.getElem?_append_right (by omega)]
      rw [hj, Nat.add_sub_cancel_left] at h
      rw [hj, show X.length + (j + 1) - 1 - X.length = j by omega]
      exact h
  · rw [if_neg hi, List.getElem?_append_left (by omega)]
    rwa [List.getElem?_append_left (by omega)] at h

/-- `hdocs` after `ecispace(p, n)`. -/
def shifted (p n : Nat) (hdocs : List Heredocs) : List Heredocs :=
  hdocs.map fun h => if p ≤ h.pc then { h with pc := h.pc + n } else h

theorem mem_none_replicate {n : Nat} {r : Redir} : some r ∉ List.replicate n none := fun h =>
  absurd (List.eq_of_mem_replicate h) (Option.some_ne_none r)

theorem ids_replicate (n : Nat) :
    (List.replicate n (none : Option Redir)).filterMap (Option.map Redir.id) = [] := by
  rw [List.filterMap_replicate_of_none rfl]

theorem mem_insert_middle {a : Option Redir} : a ∈ X ++ N ++ Y ↔ a ∈ N ∨ a ∈ X ++ Y := by
  simp only [List.mem_append]
  tauto

theorem Marked.place_shift (h : Marked (X ++ Y) hdocs redirs) :
    ∀ d ∈ shifted X.length N.length hdocs, ∃ r, (X ++ N ++ Y)[d.pc]? = some (some r) ∧
      r.id = d.redir ∧ r.term = d.str := by
  intro d hd
  obtain ⟨d', hd', rfl⟩ := List.mem_map.mp hd
  obtain ⟨r, hr, hid, hterm⟩ := h.place d' hd'
  have hplace := getElem?_insert N hr
  by_cases hle : X.length ≤ d'.pc
  · rw [if_pos hle] at hplace ⊢
    exact ⟨r, hplace, hid, hterm⟩
  · rw [if_neg hle] at hplace ⊢
    exact ⟨r, hplace, hid, hterm⟩

theorem mem_shifted {p n k : Nat} (h : ∃ d ∈ hdocs, d.redir = k) :
    ∃ d ∈ shifted p n hdocs, d.redir = k := by
  obtain ⟨d, hd, hk⟩ := h
  refine ⟨_, List.mem_map_of_mem hd, ?_⟩
  by_cases hle : p ≤ d.pc
  · rw [if_pos hle]
    exact hk
  · rw [if_neg hle]
    exact hk

theorem Marked.insert (h : Marked (X ++ Y) hdocs redirs) (n : Nat) :
    Marked (X ++ List.replicate n none ++ Y) (shifted X.length n hdocs) redirs where
  unique := by
    rw [List.filterMap_append, List.filterMap_append, ids_replicate, List.append_nil,
      ← List.filterMap_append]
    exact h.unique
  fresh r hr := h.fresh r ((mem_insert_middle.mp hr).resolve_left mem_none_replicate)
  place := by
    have hplace := h.place_shift (N := List.replicate n none)
    rwa [List.length_replicate] at hplace
  waits r hr hdoc :=
    mem_shifted (h.waits r ((mem_insert_middle.mp hr).resolve_left mem_none_replicate) hdoc)

theorem Marked.append (h : Marked X hdocs redirs) (n : Nat) :
    Marked (X ++ List.replicate n none) hdocs redirs where
  unique := by
    rw [List.filterMap_append, ids_replicate, List.append_nil]
    exact h.unique
  fresh r hr := h.fresh r ((List.mem_append.mp hr).resolve_right mem_none_replicate)
  place d hd := by
    obtain ⟨r, hr, hrest⟩ := h.place d hd
    refine ⟨r, ?_, hrest⟩
    rw [List.getElem?_append_left (List.getElem?_eq_some_iff.mp hr).1, hr]
  waits r hr := h.waits r ((List.mem_append.mp hr).resolve_right mem_none_replicate)

theorem Marked.erase (h : Marked (X ++ none :: Y) hdocs redirs) :
    Marked (X ++ Y) (hdocs.map fun d => if X.length ≤ d.pc then { d with pc := d.pc - 1 } else d)
      redirs where
  unique := by
    have hids := h.unique
    rw [List.filterMap_append, List.filterMap_cons_none rfl, ← List.filterMap_append] at hids
    exact hids
  fresh r hr := h.fresh r (by
    rw [List.mem_append, List.mem_cons]
    exact (List.mem_append.mp hr).imp_right .inr)
  place d hd := by
    obtain ⟨d', hd', rfl⟩ := List.mem_map.mp hd
    obtain ⟨r, hr, hid, hterm⟩ := h.place d' hd'
    have hplace := getElem?_erase hr (Option.some_ne_none r)
    by_cases hle : X.length ≤ d'.pc
    · rw [if_pos hle] at hplace ⊢
      exact ⟨r, hplace, hid, hterm⟩
    · rw [if_neg hle] at hplace ⊢
      exact ⟨r, hplace, hid, hterm⟩
  waits r hr hdoc := by
    have hmem : some r ∈ X ++ none :: Y := by
      rw [List.mem_append, List.mem_cons]
      exact (List.mem_append.mp hr).imp_right .inr
    obtain ⟨d, hd, hk⟩ := h.waits r hmem hdoc
    refine ⟨_, List.mem_map_of_mem hd, ?_⟩
    by_cases hle : X.length ≤ d.pc
    · rw [if_pos hle]
      exact hk
    · rw [if_neg hle]
      exact hk

theorem ids_middle :
    (X ++ some r :: Y).filterMap (Option.map Redir.id) =
      X.filterMap (Option.map Redir.id) ++ r.id :: Y.filterMap (Option.map Redir.id) := by
  rw [List.filterMap_append]
  rfl

theorem mem_ids {s : Redir} (h : some s ∈ X) : s.id ∈ X.filterMap (Option.map Redir.id) :=
  List.mem_filterMap.mpr ⟨some s, h, rfl⟩

theorem Marked.insertRedir (h : Marked (X ++ Y) hdocs redirs) (hid : r.id = redirs) (n type : Nat) :
    Marked (X ++ some r :: List.replicate n none ++ Y)
      (shifted X.length (n + 1) hdocs ++
        [{ type := type, pc := X.length, str := r.term, redir := redirs }]) (redirs + 1) where
  unique := by
    have hids := h.unique
    rw [List.filterMap_append] at hids
    rw [List.append_assoc, List.cons_append, ids_middle, List.filterMap_append, ids_replicate,
      List.nil_append]
    refine List.nodup_middle.mpr (List.nodup_cons.mpr ⟨fun hmem => ?_, hids⟩)
    rw [← List.filterMap_append] at hmem
    obtain ⟨m, hm, hmid⟩ := List.mem_filterMap.mp hmem
    obtain ⟨s, rfl, hs⟩ := Option.map_eq_some_iff.mp hmid
    have hlt := h.fresh s hm
    omega
  fresh s hs := by
    rcases mem_insert_middle.mp hs with hs | hs
    · rcases List.mem_cons.mp hs with hs | hs
      · cases hs
        omega
      · exact absurd hs mem_none_replicate
    · exact Nat.lt_succ_of_lt (h.fresh s hs)
  place d hd := by
    rcases List.mem_append.mp hd with hd | hd
    · have hplace := h.place_shift (N := some r :: List.replicate n none) d
      rw [List.length_cons, List.length_replicate] at hplace
      exact hplace hd
    · cases List.mem_singleton.mp hd
      refine ⟨r, ?_, hid, rfl⟩
      rw [List.append_assoc, List.getElem?_append_right (Nat.le_refl _), Nat.sub_self]
      rfl
  waits s hs hdoc := by
    rcases mem_insert_middle.mp hs with hs | hs
    · rcases List.mem_cons.mp hs with hs | hs
      · cases hs
        exact ⟨_, List.mem_append_right _ (List.mem_singleton.mpr rfl), hid.symm⟩
      · exact absurd hs mem_none_replicate
    · obtain ⟨d, hd, hk⟩ := mem_shifted (p := X.length) (n := n + 1) (h.waits s hs hdoc)
      exact ⟨d, List.mem_append_left _ hd, hk⟩

theorem Marked.others (h : Marked (X ++ some r :: Y) hdocs redirs) {s : Redir}
    (hs : some s ∈ X ++ Y) : s.id ≠ r.id := by
  have hids := h.unique
  rw [ids_middle] at hids
  have hnot := (List.nodup_cons.mp (List.nodup_middle.mp hids)).1
  rw [← List.filterMap_append] at hnot
  exact fun heq => hnot (heq ▸ mem_ids hs)

theorem Marked.placed (h : Marked (X ++ some r :: Y) hdocs redirs) {d : Heredocs} (hd : d ∈ hdocs)
    (hk : d.redir = r.id) : d.pc = X.length ∧ d.str = r.term := by
  obtain ⟨s, hs, hid, hterm⟩ := h.place d hd
  have hsr : s.id = r.id := hid.trans hk
  rcases Nat.lt_trichotomy d.pc X.length with hlt | heq | hgt
  · rw [List.getElem?_append_left hlt] at hs
    exact absurd hsr (h.others (List.mem_append_left _ (List.mem_of_getElem? hs)))
  · rw [heq, List.getElem?_append_right (Nat.le_refl _), Nat.sub_self] at hs
    cases hs
    exact ⟨heq, hterm.symm⟩
  · rw [List.getElem?_append_right (by omega), List.getElem?_cons, if_neg (by omega)] at hs
    exact absurd hsr (h.others (List.mem_append_right _ (List.mem_of_getElem? hs)))

theorem Marked.complete {d : Heredocs} (h : Marked (X ++ some r :: Y) (d :: hdocs) redirs)
    (hk : d.redir = r.id) (hid : r'.id = r.id) (hterm : r'.term = r.term) (hdoc : r'.doc ≠ none) :
    Marked (X ++ some r' :: Y) hdocs redirs where
  unique := by
    rw [ids_middle, hid, ← ids_middle]
    exact h.unique
  fresh s hs := by
    rcases List.mem_append.mp hs with hs | hs
    · exact h.fresh s (List.mem_append_left _ hs)
    · rcases List.mem_cons.mp hs with hs | hs
      · cases hs
        rw [hid]
        exact h.fresh r (List.mem_append_right _ List.mem_cons_self)
      · exact h.fresh s (List.mem_append_right _ (List.mem_cons_of_mem _ hs))
  place e he := by
    obtain ⟨s, hs, hrest⟩ := h.place e (List.mem_cons_of_mem _ he)
    rcases Nat.lt_trichotomy e.pc X.length with hlt | heq | hgt
    · rw [List.getElem?_append_left hlt] at hs
      exact ⟨s, by rw [List.getElem?_append_left hlt, hs], hrest⟩
    · rw [heq, List.getElem?_append_right (Nat.le_refl _), Nat.sub_self] at hs
      cases hs
      refine ⟨r', ?_, hid.trans hrest.1, hterm.trans hrest.2⟩
      rw [heq, List.getElem?_append_right (Nat.le_refl _), Nat.sub_self]
      rfl
    · rw [List.getElem?_append_right (by omega), List.getElem?_cons, if_neg (by omega)] at hs
      refine ⟨s, ?_, hrest⟩
      rw [List.getElem?_append_right (by omega), List.getElem?_cons, if_neg (by omega), hs]
  waits s hs hnone := by
    have hother : some s ∈ X ++ Y := by
      rcases List.mem_append.mp hs with hs | hs
      · exact List.mem_append_left _ hs
      · rcases List.mem_cons.mp hs with hs | hs
        · cases hs
          exact absurd hnone hdoc
        · exact List.mem_append_right _ hs
    have hold : some s ∈ X ++ some r :: Y := by
      rw [List.mem_append, List.mem_cons]
      exact (List.mem_append.mp hother).imp_right .inr
    obtain ⟨e, he, hes⟩ := h.waits s hold hnone
    rcases List.mem_cons.mp he with rfl | he
    · exact absurd (hes.symm.trans hk) (h.others hother)
    · exact ⟨e, he, hes⟩

end Marked

end NextBSD.Zsh

/-!
## The string table

Each string has a place of its own in the table, and the strings of one function are found from
the base that was current when they were stored.  A word stays good while strings are added.
-/

namespace NextBSD.Zsh

structure Strings (nodes : List Eccstr) (ecsoffs ecssub ecnfunc : Nat) : Prop where
  fits : ∀ n ∈ nodes, n.aoffs + n.str.memory.length ≤ ecsoffs
  apart : ∀ m ∈ nodes, ∀ n ∈ nodes,
    m = n ∨ m.aoffs + m.str.memory.length ≤ n.aoffs ∨ n.aoffs + n.str.memory.length ≤ m.aoffs
  past : ∀ n ∈ nodes, n.nfunc ≤ ecnfunc
  current : ∀ n ∈ nodes, n.nfunc = ecnfunc →
    ecssub ≤ n.aoffs ∧ n.offs = longCode (n.aoffs - ecssub) n.str
  base_le : ecssub ≤ ecsoffs

/-- The word is the word of the string in the part of the table from `base` to `hi`. -/
def Coded (nodes : List Eccstr) (base hi : Nat) (slot : Wordcode × CStr) : Prop :=
  (slot.2.memory.length ≤ 4 ∧ slot.1 = shortCode slot.2) ∨
    ∃ n ∈ nodes, n.str = slot.2 ∧ base ≤ n.aoffs ∧ n.aoffs + n.str.memory.length ≤ hi ∧
      slot.1 = longCode (n.aoffs - base) slot.2

/-- The words of an item have their strings in the part of the table from `base` to `hi`, and
those of a function's body in a part of that. -/
inductive Item.Good (nodes : List Eccstr) : Nat → Nat → Item → Prop where
  | word {base hi : Nat} {w : Wordcode} : Good nodes base hi (.word w)
  | str {base hi : Nat} {w : Wordcode} {s : CStr} (h : Coded nodes base hi (w, s)) :
    Good nodes base hi (.str w s)
  | redir {base hi : Nat} {r : Redir}
      (hdoc : ∀ doc munged, r.doc = some (doc, munged) → Coded nodes base hi (r.text, doc) ∧
        Coded nodes base hi (r.raw, r.term) ∧ Coded nodes base hi (r.munged, munged))
      (hvar : ∀ v, r.var = some v → Coded nodes base hi v) : Good nodes base hi (.redir r)
  | func {base hi so : Nat} {h : Header} {body : List Item} (hso : base ≤ so)
      (hend : so + h.nstrs ≤ hi) (hsbeg : h.sbeg = so - base) (hnum : h.num = h.names.length)
      (hskip : wcData h.funcdef = h.names.length + 5 + (wordsOf body).length)
      (hnames : ∀ n ∈ h.names, Coded nodes base hi n)
      (hbody : ∀ it ∈ body, Good nodes so (so + h.nstrs) it) : Good nodes base hi (.func h body)

variable {nodes nodes' : List Eccstr} {base hi hi' ecsoffs ecssub ecnfunc : Nat}

theorem Coded.mono {slot : Wordcode × CStr} (h : Coded nodes base hi slot)
    (hnodes : ∀ n ∈ nodes, n ∈ nodes') (hhi : hi ≤ hi') : Coded nodes' base hi' slot := by
  refine h.imp_right fun hlong => ?_
  obtain ⟨n, hn, hstr, hbase, hend, hcode⟩ := hlong
  exact ⟨n, hnodes n hn, hstr, hbase, Nat.le_trans hend hhi, hcode⟩

theorem Item.Good.mono {it : Item} (h : it.Good nodes base hi) (hnodes : ∀ n ∈ nodes, n ∈ nodes')
    (hhi : hi ≤ hi') : it.Good nodes' base hi' := by
  induction h generalizing hi' with
  | word => exact .word
  | str h => exact .str (h.mono hnodes hhi)
  | redir hdoc hvar =>
    refine .redir (fun doc munged h => ?_) fun v hv => (hvar v hv).mono hnodes hhi
    obtain ⟨htext, hraw, hmunged⟩ := hdoc doc munged h
    exact ⟨htext.mono hnodes hhi, hraw.mono hnodes hhi, hmunged.mono hnodes hhi⟩
  | func hso hend hsbeg hnum hskip hnames _ ih =>
    exact .func hso (Nat.le_trans hend hhi) hsbeg hnum hskip
      (fun n hn => (hnames n hn).mono hnodes hhi) fun it hit => ih it hit (Nat.le_refl _)

theorem Strings.add (h : Strings nodes ecsoffs ecssub ecnfunc) {p : Eccstr}
    (haoffs : p.aoffs = ecsoffs) (hnfunc : p.nfunc = ecnfunc)
    (hoffs : p.offs = longCode (ecsoffs - ecssub) p.str)
    (hnodes : ∀ n, n ∈ nodes' ↔ n = p ∨ n ∈ nodes) :
    Strings nodes' (ecsoffs + p.str.memory.length) ecssub ecnfunc where
  fits n hn := by
    rcases (hnodes n).mp hn with rfl | hn
    · omega
    · exact Nat.le_trans (h.fits n hn) (Nat.le_add_right _ _)
  apart m hm n hn := by
    rcases (hnodes m).mp hm with rfl | hm <;> rcases (hnodes n).mp hn with rfl | hn
    · exact .inl rfl
    · exact .inr (.inr (by have := h.fits n hn; omega))
    · exact .inr (.inl (by have := h.fits m hm; omega))
    · exact h.apart m hm n hn
  past n hn := by
    rcases (hnodes n).mp hn with rfl | hn
    · exact Nat.le_of_eq hnfunc
    · exact h.past n hn
  current n hn hcur := by
    rcases (hnodes n).mp hn with rfl | hn
    · rw [haoffs]
      exact ⟨h.base_le, hoffs⟩
    · exact h.current n hn hcur
  base_le := Nat.le_trans h.base_le (Nat.le_add_right _ _)

theorem Strings.enter (h : Strings nodes ecsoffs ecssub ecnfunc) {sub : Nat} (hsub : sub ≤ ecsoffs) :
    Strings nodes ecsoffs sub (ecnfunc + 1) where
  fits := h.fits
  apart := h.apart
  past n hn := Nat.le_succ_of_le (h.past n hn)
  current n hn hcur := by
    have hle := h.past n hn
    omega
  base_le := hsub

namespace Ec

variable {ec : Ec}

def Stored (ec : Ec) : Prop := Strings ec.ecstrs.nodes ec.ecsoffs ec.ecssub ec.ecnfunc

structure Grows (ec ec' : Ec) : Prop where
  nodes : ∀ n ∈ ec.ecstrs.nodes, n ∈ ec'.ecstrs.nodes
  ecsoffs : ec.ecsoffs ≤ ec'.ecsoffs

theorem Grows.refl (ec : Ec) : Grows ec ec := ⟨fun _ hn => hn, Nat.le_refl _⟩

theorem Grows.trans {ec' ec'' : Ec} (h : Grows ec ec') (h' : Grows ec' ec'') : Grows ec ec'' :=
  ⟨fun n hn => h'.nodes n (h.nodes n hn), Nat.le_trans h.ecsoffs h'.ecsoffs⟩

theorem ecstrcode_eq (ec : Ec) (s : CStr) :
    (ec.ecstrcode s).2 =
      { ec with
        ecstrs := (ec.ecstrcode s).2.ecstrs
        ecsoffs := (ec.ecstrcode s).2.ecsoffs } := by
  unfold ecstrcode
  by_cases hshort : s.memory.length ≤ 4
  · rw [if_pos hshort]
  · rw [if_neg hshort]
    cases ec.ecstrs.find (eccstrcmp ec.ecnfunc s) <;> rfl

theorem ecstrcode_spec (h : ec.Stored) (s : CStr) :
    (ec.ecstrcode s).2.Stored ∧ ec.Grows (ec.ecstrcode s).2 ∧
      (ec.ecstrcode s).2.ecsoffs ≤ ec.ecsoffs + s.memory.length ∧
      Coded (ec.ecstrcode s).2.ecstrs.nodes ec.ecssub (ec.ecstrcode s).2.ecsoffs
        ((ec.ecstrcode s).1, s) := by
  unfold ecstrcode
  by_cases hshort : s.memory.length ≤ 4
  · rw [if_pos hshort]
    exact ⟨h, .refl ec, Nat.le_add_right _ _, .inl ⟨hshort, rfl⟩⟩
  · rw [if_neg hshort]
    cases hfind : ec.ecstrs.find (eccstrcmp ec.ecnfunc s) with
    | some p =>
      obtain ⟨hp, hzero⟩ := KeyTree.find_mem hfind
      obtain ⟨hnfunc, hstr⟩ := eccstrcmp_eq_zero hzero
      obtain ⟨hbase, hoffs⟩ := h.current p hp hnfunc
      refine ⟨h, .refl ec, Nat.le_add_right _ _, .inr ⟨p, hp, hstr, hbase, h.fits p hp, ?_⟩⟩
      rw [← hstr]
      exact hoffs
    | none =>
      have hnodes (n : Eccstr) := @KeyTree.mem_insert _ _ _ n
        ⟨s, longCode (ec.ecsoffs - ec.ecssub) s, ec.ecsoffs, ec.ecnfunc, hasher s⟩ hfind
      refine ⟨Strings.add h rfl rfl rfl hnodes,
        ⟨fun n hn => (hnodes n).mpr (.inr hn), Nat.le_add_right _ _⟩, Nat.le_refl _,
        .inr ⟨_, (hnodes _).mpr (.inl rfl), rfl, h.base_le, Nat.le_refl _, rfl⟩⟩

end Ec

end NextBSD.Zsh
