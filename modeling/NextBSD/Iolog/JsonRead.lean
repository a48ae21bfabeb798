import NextBSD.Iolog.JsonDocument

/-!
# Reading the lines of a document

The words of a line are read one after the other.  A line whose name or string ends in a
backslash is refused: the reader runs over the quote that closes it.
-/

namespace NextBSD.Iolog

/-! ## One turn of the loop -/

theorem stringEnd_length {cp : Bytes} {p : Bytes × Bytes} (h : stringEnd cp = some p) :
    p.2.length < cp.length := by
  fun_induction stringEnd cp generalizing p with
  | case1 => exact absurd h (Option.some_ne_none _).symm
  | case2 cp =>
    obtain rfl := Option.some.inj h
    exact Nat.lt_succ_self _
  | case3 cp ih =>
    obtain ⟨q, hq, rfl⟩ := Option.map_eq_some_iff.mp h
    have hlt := ih hq
    simp only [List.length_cons]
    omega
  | case4 c cp hquote hslash ih =>
    obtain ⟨q, hq, rfl⟩ := Option.map_eq_some_iff.mp h
    have hlt := ih hq
    simp only [List.length_cons]
    omega

theorem jsonParseString_length {c : UInt8} {cp : Bytes} {p : Bytes × Bytes}
    (h : jsonParseString (c :: cp) = some p) : p.2.length < (c :: cp).length := by
  obtain ⟨q, hq, rfl⟩ := Option.map_eq_some_iff.mp h
  have hlt : q.2.length < cp.length := stringEnd_length hq
  have hle : (q.2.dropWhile isspace).length ≤ q.2.length := List.length_dropWhile_le _ _
  show (q.2.dropWhile isspace).length < cp.length + 1
  omega

theorem readString_length {st : ReadState} {c : UInt8} {cp : Bytes} {p : ReadState × Bytes}
    (h : readString st (c :: cp) = some p) : p.2.length < (c :: cp).length := by
  unfold readString at h
  split_ifs at h
  · unfold readName at h
    split at h
    · next name cp' hparse =>
      have hlt := jsonParseString_length hparse
      obtain rfl := Option.some.inj h
      simp only [List.length_cons] at hlt ⊢
      omega
    · exact absurd h (Option.some_ne_none _).symm
  · obtain ⟨q, hq, rfl⟩ := Option.map_eq_some_iff.mp h
    exact jsonParseString_length hq

theorem readWord_length {word : Bytes} {v : JsonScalar} {st : ReadState} {cp : Bytes}
    {p : ReadState × Bytes} (hword : word ≠ []) (h : readWord word v st cp = some p) :
    p.2.length < cp.length := by
  unfold readWord at h
  dsimp only at h
  split_ifs at h with hstart
  obtain rfl := Option.some.inj h
  have hpos : 0 < word.length := List.length_pos_of_ne_nil hword
  have hle : word.length ≤ cp.length := by
    rw [Bool.not_eq_true', Bool.not_eq_false] at hstart
    exact (List.isPrefixOf_iff_prefix.mp hstart).length_le
  show (cp.drop word.length).length < cp.length
  rw [List.length_drop]
  omega

theorem readNumber_length {st : ReadState} {c : UInt8} {cp : Bytes} {p : ReadState × Bytes}
    (hc : endsNumber c = false) (h : readNumber st (c :: cp) = some p) :
    p.2.length < (c :: cp).length := by
  unfold readNumber at h
  split_ifs at h
  obtain ⟨num, -, rfl⟩ := Option.map_eq_some_iff.mp h
  show ((c :: cp).dropWhile (fun c => !endsNumber c)).length < (c :: cp).length
  rw [List.dropWhile_cons, if_pos (by rw [hc]; rfl)]
  exact Nat.lt_succ_of_le (List.length_dropWhile_le _ _)

theorem sign_plain {c : UInt8} (h : c = 43 ∨ c = 45 ∨ isdigit c = true) : endsNumber c = false := by
  rcases h with rfl | rfl | h
  · rfl
  · rfl
  · exact (isdigit_plain c h).2.2.2

theorem readValue_length {st : ReadState} {c : UInt8} {cp : Bytes} {p : ReadState × Bytes}
    (h : (if c = 34 then readString st (c :: cp)
      else if c = 116 then readWord (ascii "true") (.boolean true) st (c :: cp)
      else if c = 102 then readWord (ascii "false") (.boolean false) st (c :: cp)
      else if c = 110 then readWord (ascii "null") .null st (c :: cp)
      else if c = 43 ∨ c = 45 ∨ isdigit c then readNumber st (c :: cp)
      else none) = some p) : p.2.length < (c :: cp).length := by
  split at h
  · exact readString_length h
  · split at h
    · exact readWord_length (by decide) h
    · split at h
      · exact readWord_length (by decide) h
      · split at h
        · exact readWord_length (by decide) h
        · split at h
          · exact readNumber_length (sign_plain ‹_›) h
          · exact absurd h (Option.some_ne_none _).symm

theorem readToken_length {st : ReadState} {cp : Bytes} {p : ReadState × Bytes}
    (h : readToken st cp = some p) : p.2.length < cp.length := by
  cases cp with
  | nil => exact absurd h (Option.some_ne_none _).symm
  | cons c cp =>
    have hmap : ∀ o : Option ReadState, o.map (·, cp) = some p → p.2.length < (c :: cp).length := by
      intro o ho
      obtain ⟨st', -, rfl⟩ := Option.map_eq_some_iff.mp ho
      exact Nat.lt_succ_self _
    rw [readToken] at h
    split at h
    · exact hmap _ h
    · split at h
      · exact hmap _ h
      · split at h
        · exact hmap _ h
        · split at h
          · exact hmap _ h
          · exact readValue_length h

theorem skipComma_length (st : ReadState) (cp : Bytes) :
    (skipComma st cp).2.length ≤ cp.length := by
  have hle : (cp.dropWhile isspace).length ≤ cp.length := List.length_dropWhile_le _ _
  unfold skipComma
  split
  · next cp' heq =>
    have hle' : (cp'.dropWhile isspace).length ≤ cp'.length := List.length_dropWhile_le _ _
    rw [heq, List.length_cons] at hle
    show (cp'.dropWhile isspace).length ≤ cp.length
    omega
  · exact hle

theorem readWords_fuel {n m : Nat} {st : ReadState} {cp : Bytes} (hn : cp.length < n)
    (hm : cp.length < m) : readWords n st cp = readWords m st cp := by
  induction n generalizing m st cp with
  | zero => exact absurd hn (Nat.not_lt_zero _)
  | succ n ih =>
    cases m with
    | zero => exact absurd hm (Nat.not_lt_zero _)
    | succ m =>
      rw [readWords, readWords]
      have hskip := skipComma_length st cp
      cases hsplit : skipComma st cp with
      | mk st' cp' =>
        rw [hsplit] at hskip
        cases cp' with
        | nil => rfl
        | cons c cp' =>
          dsimp only at hskip ⊢
          cases htoken : readToken st' (c :: cp') with
          | none => rfl
          | some p =>
            have hlt := readToken_length htoken
            exact ih (by omega) (by omega)

def words (st : ReadState) (cp : Bytes) : Option ReadState := readWords (cp.length + 1) st cp

theorem words_end {st st' : ReadState} {cp : Bytes} (h : skipComma st cp = (st', [])) :
    words st cp = some st' := by
  rw [words, readWords, h]

theorem words_token {st st' : ReadState} {c : UInt8} {cp cp' : Bytes}
    (h : skipComma st cp = (st', c :: cp')) :
    words st cp = (readToken st' (c :: cp')).bind (fun p => words p.1 p.2) := by
  have hle := skipComma_length st cp
  rw [words, readWords, h]
  rw [h] at hle
  dsimp only at hle ⊢
  cases htoken : readToken st' (c :: cp') with
  | none => rfl
  | some p =>
    have hlt := readToken_length htoken
    exact readWords_fuel (by omega) (Nat.lt_succ_self _)

theorem words_skip {st : ReadState} {l : Bytes} (h : ∀ c ∈ l, isspace c = true) (cp : Bytes) :
    words st (l ++ cp) = words st cp := by
  have hskip : skipComma st (l ++ cp) = skipComma st cp := by
    unfold skipComma
    rw [List.dropWhile_append_of_pos h]
  cases hsplit : skipComma st cp with
  | mk st' cp' =>
    cases cp' with
    | nil => rw [words_end hsplit, words_end (hskip.trans hsplit)]
    | cons c cp' => rw [words_token hsplit, words_token (hskip.trans hsplit)]

theorem isspace_pad {indent : Nat} : ∀ c ∈ pad indent, isspace c = true := by
  intro c hc
  rw [List.eq_of_mem_replicate hc]
  rfl

theorem words_cons {st : ReadState} {c : UInt8} (hspace : isspace c = false) (hcomma : c ≠ 44)
    (cp : Bytes) : words st (c :: cp) = (readToken st (c :: cp)).bind (fun p => words p.1 p.2) := by
  refine words_token ?_
  unfold skipComma
  rw [List.dropWhile_cons, if_neg (by rw [hspace]; exact Bool.false_ne_true)]
  split
  · next heq => exact absurd (List.cons.inj heq).1 hcomma
  · rfl

theorem readLine_eq {line : Bytes} {c : UInt8} (h : line.getLast? = some c)
    (hc : isspace c = false) (st : ReadState) : readLine st line = words st line := by
  have htrim : trimEnd line = line := by
    cases line with
    | nil => rfl
    | cons d cp =>
      show d :: cp.rdropWhile isspace = d :: cp
      rw [List.rdropWhile_eq_self_iff.mpr]
      intro hne
      have hlast : (d :: cp).getLast? = some (cp.getLast hne) := by
        rw [List.getLast?_eq_some_getLast (List.cons_ne_nil _ _), List.getLast_cons hne]
      rw [hlast] at h
      obtain rfl := Option.some.inj h
      rw [hc]
      exact Bool.false_ne_true
  unfold readLine words
  rw [htrim]

end NextBSD.Iolog
