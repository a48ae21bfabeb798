import NextBSD.Zsh.Pattern.NumericScan

/-!
# Numeric globs and their language

A numeric glob in front of literals, `?` and `*` matches digits within its bounds, unless there are
more of them than 63 bits hold.
-/

namespace NextBSD.Zsh.Pattern.Numeric

open Digits

variable {cs : Charset} {k : Nat} {s run d : Bytes} {c : UInt8}

/-! ## The rest of the pattern -/

inductive TailItem where
  | byte (c : UInt8)
  | quest
  | star
  deriving DecidableEq, Repr

/-- `patcomppiece`: literal characters that stand together are one node. -/
def tailNodes : List TailItem → List Node
  | [] => []
  | .quest :: tail => .any :: tailNodes tail
  | .star :: tail => .star :: tailNodes tail
  | .byte c :: tail =>
    match tailNodes tail with
    | .exactly s :: nodes => .exactly (c :: s) :: nodes
    | nodes => .exactly [c] :: nodes

theorem tailNodes_ne_nil (tail : List TailItem) : ∀ s, .exactly s ∈ tailNodes tail → s ≠ [] := by
  fun_induction tailNodes tail with
  | case1 => intro s h; cases h
  | case2 tail ih =>
    intro s h
    cases h with
    | tail _ h => exact ih s h
  | case3 tail ih =>
    intro s h
    cases h with
    | tail _ h => exact ih s h
  | case4 c tail s nodes heq ih =>
    intro t h
    cases h with
    | head => exact List.cons_ne_nil _ _
    | tail _ h => exact ih t (by rw [heq]; exact .tail _ h)
  | case5 c tail hne ih =>
    intro t h
    cases h with
    | head => exact List.cons_ne_nil _ _
    | tail _ h => exact ih t h

theorem charref_digit (h : idigit c = true) (s : Bytes) :
    charref cs c s = { value := c.toNat, ind := .valid, length := 1 } := by
  have hc := (idigit_iff c).mp h
  unfold charref
  rw [if_neg]
  rintro ⟨-, hlarge⟩
  have hlarge' : 128 ≤ c.toNat := UInt8.le_iff_toNat_le.mp hlarge
  omega

theorem charnext_digit (h : idigit c = true) (s : Bytes) : charnext cs (c :: s) = s := by
  rw [charnext, charref_digit h]
  rfl

theorem charref_value_ne {p : UInt8} (hp : idigit p = false) (h : idigit c = true) (s : Bytes) :
    (charref cs p s).value ≠ c.toNat := by
  have hc := (idigit_iff c).mp h
  unfold charref
  split_ifs with hwide
  · have hlarge : 128 ≤ p.toNat := UInt8.le_iff_toNat_le.mp hwide.2
    split
    · show 0xdc00 + p.toNat ≠ c.toNat
      omega
    · rename_i wc n hwc
      have hge := cs.mbrtowc_ge hwide.2 hwc
      show wc ≠ c.toNat
      omega
  · show p.toNat ≠ c.toNat
    intro heq
    rw [UInt8.toNat_inj.mp heq, h] at hp
    cases hp

theorem patmatch_noDigitNext {nodes : List Node} (hplain : ∀ s, .exactly s ∈ nodes → s ≠ [])
    (hno : noDigitNext nodes = true) (h : idigit c = true) (s : Bytes) :
    patmatch cs nodes (c :: s) = false := by
  cases nodes with
  | nil => cases hno
  | cons node nodes =>
    cases node with
    | exactly literal =>
      cases literal with
      | nil => exact absurd rfl (hplain [] (.head _))
      | cons p chrop =>
        have hp : idigit p = false := by simpa [noDigitNext] using hno
        rw [patmatch, exactLoop]
        simp only [charref_digit h]
        rw [if_neg fun hmatch => charref_value_ne hp h chrop hmatch.1.symm]
        rfl
    | _ => cases hno

theorem charStarts_cons (cs : Charset) (c : UInt8) (s : Bytes) :
    charStarts cs (c :: s) = (c :: s) :: charStarts cs (charnext cs (c :: s)) := by
  rw [charStarts]

theorem charStarts_length_pos (cs : Charset) (s : Bytes) : 0 < (charStarts cs s).length := by
  cases s with
  | nil => rw [charStarts]; exact Nat.one_pos
  | cons c s => rw [charStarts_cons]; exact Nat.succ_pos _

theorem patmatch_quests (m : Nat) (s : Bytes) :
    patmatch cs (List.replicate m .any) s = true ↔ (charStarts cs s).length = m + 1 := by
  induction m generalizing s with
  | zero =>
    rw [List.replicate_zero, patmatch]
    cases s with
    | nil => simp [charStarts]
    | cons c s =>
      have hpos := charStarts_length_pos cs (charnext cs (c :: s))
      rw [charStarts_cons, List.length_cons]
      simp only [List.isEmpty_cons, Bool.false_eq_true, false_iff]
      omega
  | succ m ih =>
    rw [List.replicate_succ, patmatch]
    cases s with
    | nil => simp [charStarts]
    | cons c s =>
      rw [charStarts_cons, List.length_cons]
      simp only [List.isEmpty_cons, Bool.not_false, Bool.true_and, ih]
      omega

theorem tailNodes_quests (m : Nat) :
    tailNodes (List.replicate m .quest) = List.replicate m .any := by
  induction m with
  | zero => rfl
  | succ m ih => rw [List.replicate_succ, tailNodes, ih, List.replicate_succ]

theorem charStarts_digits (hrun : ∀ c ∈ run, idigit c = true) (rest : Bytes) :
    (charStarts cs (run ++ rest)).length = run.length + (charStarts cs rest).length := by
  induction run with
  | nil => rw [List.nil_append, List.length_nil, Nat.zero_add]
  | cons c run ih =>
    rw [List.cons_append, charStarts_cons, charnext_digit (hrun c (.head _)), List.length_cons,
      ih fun c hc => hrun c (.tail _ hc), List.length_cons]
    omega

theorem zdigit_ten (h : idigit c = true) : zdigit 10 c = some (digit c) := by
  have hc := (idigit_iff c).mp h
  unfold zdigit
  rw [if_pos (by decide), if_pos (by omega)]
  rfl

theorem zdigit_ten_none (h : idigit c = false) : zdigit 10 c = none := by
  unfold zdigit
  rw [if_pos (by decide), if_neg]
  intro hc
  have hdigit : idigit c = true := (idigit_iff c).mpr (by omega)
  rw [h] at hdigit
  cases hdigit

theorem digit_plain (h : idigit c = true) : inblank c = false ∧ isDash c = false ∧ c ≠ 43 := by
  have hc := (idigit_iff c).mp h
  have hne (x : UInt8) (hx : x.toNat < 48 ∨ 57 < x.toNat) : c ≠ x := by
    rintro rfl
    omega
  refine ⟨?_, ?_, hne 43 (by decide)⟩
  · simp [inblank, hne 32 (by decide), hne 9 (by decide), hne 10 (by decide)]
  · simp [isDash, hne 45 (by decide), hne 0x9b (by decide)]

theorem digitsOf_ten (hrun : ∀ c ∈ run, idigit c = true) : digitsOf 10 run = run.map digit := by
  induction run with
  | nil => rfl
  | cons c run ih =>
    rw [digitsOf_cons_of_some (zdigit_ten (hrun c (.head _))),
      ih fun c hc => hrun c (.tail _ hc), List.map_cons]

/-! ## Numeric globs -/

/-- The bounds of a numeric glob, of which none is beyond `ZRANGE_MAX`. -/
inductive Bounds where
  | rng (low high : Nat) (hle : low ≤ high) (hmax : high ≤ ZRANGE_MAX)
  | upFrom (low : Nat) (hmax : low ≤ ZRANGE_MAX)
  | upTo (high : Nat) (hmax : high ≤ ZRANGE_MAX)
  | any

def Bounds.node : Bounds → Node
  | .rng low high _ _ => .numrng low high
  | .upFrom low _ => .numfrom low
  | .upTo high _ => .numto high
  | .any => .numany

def Bounds.Holds : Bounds → Nat → Prop
  | .rng low high _ _, v => low ≤ v ∧ v ≤ high
  | .upFrom low _, v => low ≤ v
  | .upTo high _, v => v ≤ high
  | .any, _ => True

def InGlob (cs : Charset) (b : Bounds) (tail : List TailItem) (s : Bytes) : Prop :=
  ∃ d t, s = d ++ t ∧ d ≠ [] ∧ (∀ c ∈ d, idigit c = true) ∧ b.Holds (value d) ∧
    patmatch cs (tailNodes tail) t = true

def Bounds.Readable (b : Bounds) (run : Bytes) : Prop :=
  match b with
  | .rng low high _ _ => value run ≤ ZRANGE_MAX ∨ Apart low high run
  | .upFrom low _ => low = 0 ∨ NoJump run
  | .upTo _ _ => value run ≤ ZRANGE_MAX
  | .any => True

def Bounds.Tried (b : Bounds) (run : Bytes) (k : Nat) : Prop :=
  match b with
  | .rng low high _ _ => Accepts low (some high) (foldNumber 0 run) run.length k
  | .upFrom low _ =>
    Accepts low none (scanNumber true ⟨0, 0, 0⟩ run).comp (scanNumber true ⟨0, 0, 0⟩ run).compend k
  | .upTo high _ => Accepts 0 (some high) (foldNumber 0 run) run.length k
  | .any => True

theorem digits_takeWhile (s : Bytes) : ∀ c ∈ s.takeWhile idigit, idigit c = true :=
  List.all_eq_true.mp List.all_takeWhile

theorem drop_digits (h : k < (s.takeWhile idigit).length) :
    ∃ c t, s.drop k = c :: t ∧ idigit c = true := by
  have hlt : k < s.length := h.trans_le (List.takeWhile_sublist _).length_le
  refine ⟨s[k], s.drop (k + 1), List.drop_eq_getElem_cons hlt, ?_⟩
  have hget := (List.takeWhile_prefix idigit).getElem h
  rw [← hget]
  exact digits_takeWhile s _ (List.getElem_mem h)

theorem patmatch_number_iff (b : Bounds) {nodes : List Node}
    (hplain : ∀ s, .exactly s ∈ nodes → s ≠ []) (s : Bytes) :
    patmatch cs (b.node :: nodes) s = true ↔ ∃ k, 0 < k ∧ k ≤ (s.takeWhile idigit).length ∧
      b.Tried (s.takeWhile idigit) k ∧ patmatch cs nodes (s.drop k) = true := by
  have hrun := digits_takeWhile s
  have hnext : true = true → noDigitNext nodes = true → ∀ k, 0 < k →
      k < (s.takeWhile idigit).length → patmatch cs nodes (s.drop k) = false := by
    intro _ hno k _ hk
    obtain ⟨c, t, hdrop, hc⟩ := drop_digits hk
    rw [hdrop]
    exact patmatch_noDigitNext hplain hno hc t
  have hbounded (low : Nat) (high : Option Nat) :
      runNumber false low high (noDigitNext nodes) (patmatch cs nodes) s = true ↔
        ∃ k, 0 < k ∧ k ≤ (s.takeWhile idigit).length ∧
          Accepts low high (foldNumber 0 (s.takeWhile idigit)) (s.takeWhile idigit).length k ∧
          patmatch cs nodes (s.drop k) = true := by
    have hcomp : compAt (foldNumber 0 (s.takeWhile idigit)) (s.takeWhile idigit).length
        (s.takeWhile idigit).length = foldNumber 0 (s.takeWhile idigit) := by
      rw [compAt, Nat.sub_self, Nat.pow_zero, Nat.div_one]
    rw [runNumber, scanNumber_takeWhile, scanNumber_bounded hrun, ← numberBack_iff hnext, hcomp]
    simp only [Nat.zero_add]
  cases b with
  | rng low high hle hmax => exact hbounded low (some high)
  | upTo high hmax => exact hbounded 0 (some high)
  | any =>
    rw [Bounds.node, patmatch, numanyBack_iff hnext]
    simp only [Bounds.Tried, true_and]
  | upFrom low hmax =>
    obtain ⟨hlength, hle, -⟩ := from_iff hrun hmax rfl
    have hcomp : compAt (scanNumber true ⟨0, 0, 0⟩ (s.takeWhile idigit)).comp
        (scanNumber true ⟨0, 0, 0⟩ (s.takeWhile idigit)).compend (s.takeWhile idigit).length =
        (scanNumber true ⟨0, 0, 0⟩ (s.takeWhile idigit)).comp := by
      rw [compAt, Nat.sub_eq_zero_of_le (hlength ▸ hle), Nat.pow_zero, Nat.div_one]
    rw [Bounds.node, patmatch, runNumber, scanNumber_takeWhile, hlength]
    simp only [Bounds.Tried]
    rw [← numberBack_iff hnext, hcomp]

theorem inGlob_iff (b : Bounds) (tail : List TailItem) (s : Bytes) :
    InGlob cs b tail s ↔ ∃ k, 0 < k ∧ k ≤ (s.takeWhile idigit).length ∧
      b.Holds (value ((s.takeWhile idigit).take k)) ∧
        patmatch cs (tailNodes tail) (s.drop k) = true := by
  constructor
  · rintro ⟨d, t, rfl, hne, hd, hholds, ht⟩
    have htake : (d ++ t).takeWhile idigit = d ++ t.takeWhile idigit :=
      List.takeWhile_append_of_pos hd
    refine ⟨d.length, List.length_pos_of_ne_nil hne, ?_, ?_, ?_⟩
    · rw [htake, List.length_append]
      exact Nat.le_add_right _ _
    · rwa [htake, List.take_left]
    · rwa [List.drop_left]
  · rintro ⟨k, hpos, hk, hholds, ht⟩
    have htake : (s.takeWhile idigit).take k = s.take k := by
      obtain ⟨t, hs⟩ := List.takeWhile_prefix (p := idigit) (l := s)
      conv_rhs => rw [← hs]
      rw [List.take_append_of_le_length hk]
    refine ⟨s.take k, s.drop k, (List.take_append_drop k s).symm, ?_, ?_, ?_, ht⟩
    · intro hnil
      have hlength := congrArg List.length hnil
      rw [← htake, List.length_take, List.length_nil] at hlength
      omega
    · intro c hc
      rw [← htake] at hc
      exact digits_takeWhile s c (List.mem_of_mem_take hc)
    · rwa [← htake]

theorem tried_iff_holds (b : Bounds) (hrun : ∀ c ∈ run, idigit c = true) :
    (∀ k, 0 < k → k ≤ run.length → (b.Tried run k ↔ b.Holds (value (run.take k)))) ↔
      b.Readable run := by
  cases b with
  | rng low high hle hmax => exact bounded_iff hrun hmax
  | upFrom low hmax => exact (from_iff hrun hmax rfl).2.2
  | any => exact iff_of_true (fun k _ _ => Iff.rfl) trivial
  | upTo high hmax =>
    have hzero : value run ≤ ZRANGE_MAX ∨ Apart 0 high run ↔ value run ≤ ZRANGE_MAX :=
      or_iff_left fun h => absurd h.1 (Nat.lt_irrefl 0)
    have hiff := (bounded_iff (a := 0) hrun hmax).trans hzero
    simpa only [Bounds.Tried, Bounds.Holds, Bounds.Readable, Nat.zero_le, true_and] using hiff

/-- A numeric glob is matched as it should be, whatever follows it, exactly when the digits of the
string can be told from others. -/
theorem numericGlob_iff (cs : Charset) (b : Bounds) (s : Bytes) :
    (∀ tail, patmatch cs (b.node :: tailNodes tail) s = true ↔ InGlob cs b tail s) ↔
      b.Readable (s.takeWhile idigit) := by
  have hrun := digits_takeWhile s
  rw [← tried_iff_holds b hrun]
  constructor
  · intro h k hpos hk
    -- as many question marks as there are characters left
    have hsplit : ∀ j, j ≤ (s.takeWhile idigit).length → (charStarts cs (s.drop j)).length =
        (s.takeWhile idigit).length - j + (charStarts cs (s.dropWhile idigit)).length := by
      intro j hj
      have hs := List.takeWhile_append_dropWhile (p := idigit) (l := s)
      have hdrop : s.drop j = (s.takeWhile idigit).drop j ++ s.dropWhile idigit := by
        conv_lhs => rw [← hs]
        exact List.drop_append_of_le_length hj
      rw [hdrop, charStarts_digits fun c hc => hrun c (List.mem_of_mem_drop hc), List.length_drop]
    have hend := charStarts_length_pos cs (s.dropWhile idigit)
    have hat := hsplit k hk
    obtain ⟨m, hm⟩ : ∃ m, (charStarts cs (s.drop k)).length = m + 1 :=
      ⟨(charStarts cs (s.drop k)).length - 1, by omega⟩
    have hquests : ∀ j, j ≤ (s.takeWhile idigit).length →
        (patmatch cs (tailNodes (List.replicate m .quest)) (s.drop j) = true ↔ j = k) := by
      intro j hj
      have hj' := hsplit j hj
      rw [tailNodes_quests, patmatch_quests]
      omega
    have hboth := h (List.replicate m .quest)
    rw [patmatch_number_iff b (tailNodes_ne_nil _), inGlob_iff] at hboth
    constructor
    · intro htried
      obtain ⟨j, -, hj, hholds, hmatch⟩ := hboth.mp ⟨k, hpos, hk, htried, (hquests k hk).mpr rfl⟩
      rwa [← (hquests j hj).mp hmatch]
    · intro hholds
      obtain ⟨j, -, hj, htried, hmatch⟩ := hboth.mpr ⟨k, hpos, hk, hholds, (hquests k hk).mpr rfl⟩
      rwa [← (hquests j hj).mp hmatch]
  · intro h tail
    rw [patmatch_number_iff b (tailNodes_ne_nil _), inGlob_iff]
    refine exists_congr fun k => and_congr_right fun hpos => and_congr_right fun hk => ?_
    rw [h k hpos hk]

def ascii : Charset where
  multibyte := false
  mbrtowc := fun _ => .error .invalid
  mbrtowc_ge := by
    intro c s wc n _ h
    cases h

def overlong : Bytes :=
  [57, 50, 50, 51, 51, 55, 50, 48, 51, 54, 56, 53, 52, 55, 55, 53, 56, 48, 56, 55]

/-- The digit before the last one is dropped, and what is left is `ZRANGE_MAX`. -/
theorem numericGlob_overlong :
    patmatch ascii ((Bounds.rng ZRANGE_MAX ZRANGE_MAX le_rfl le_rfl).node :: tailNodes [])
        overlong = true ∧
      ¬ InGlob ascii (.rng ZRANGE_MAX ZRANGE_MAX le_rfl le_rfl) [] overlong := by
  refine ⟨by decide, ?_⟩
  rintro ⟨d, t, hs, -, -, hholds, ht⟩
  have htnil : t = [] := List.isEmpty_iff.mp ht
  rw [htnil, List.append_nil] at hs
  have hvalue : value overlong ≤ ZRANGE_MAX := by
    rw [hs]
    exact hholds.2
  revert hvalue
  decide

end NextBSD.Zsh.Pattern.Numeric
