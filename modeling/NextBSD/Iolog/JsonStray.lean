import NextBSD.Iolog.JsonRead

/-!
# Lines that are read out of step

Behind a name that ends in a backslash the reader takes the quotes of the line the wrong way
round.  Whatever it makes of the rest, it stops at a backslash or runs out of quotes.
-/

namespace NextBSD.Iolog

inductive Stray : Bytes → Prop where
  | quote {cp : Bytes} (h : 34 ∉ cp) : Stray (34 :: cp)
  | slash (cp : Bytes) : Stray (92 :: cp)
  | cons {c : UInt8} {cp : Bytes} (hquote : c ≠ 34) (hslash : c ≠ 92) (h : Stray cp) :
      Stray (c :: cp)

theorem Stray.ne_nil {cp : Bytes} (h : Stray cp) : cp ≠ [] := by
  cases h <;> exact List.cons_ne_nil _ _

theorem Stray.tail {c : UInt8} {cp : Bytes} (hquote : c ≠ 34) (hslash : c ≠ 92)
    (h : Stray (c :: cp)) : Stray cp := by
  cases h with
  | quote => exact absurd rfl hquote
  | slash => exact absurd rfl hslash
  | cons _ _ h => exact h

theorem Stray.append {l cp : Bytes} (hl : ∀ c ∈ l, c ≠ 34 ∧ c ≠ 92) (h : Stray (l ++ cp)) :
    Stray cp := by
  induction l with
  | nil => exact h
  | cons c l ih =>
    obtain ⟨hquote, hslash⟩ := hl c List.mem_cons_self
    exact ih (fun d hd => hl d (List.mem_cons_of_mem _ hd)) (Stray.tail hquote hslash h)

theorem isspace_plain : ∀ c : UInt8, isspace c = true → c ≠ 34 ∧ c ≠ 92 := by
  exact forall_byte (by decide +kernel)

theorem Stray.dropWhile {cp : Bytes} (h : Stray cp) : Stray (cp.dropWhile isspace) := by
  refine Stray.append (l := cp.takeWhile isspace)
    (fun c hc => isspace_plain c (List.mem_takeWhile_imp hc)) ?_
  rw [List.takeWhile_append_dropWhile]
  exact h

theorem stringEnd_eq_none {cp : Bytes} (h : 34 ∉ cp) : stringEnd cp = none := by
  induction cp with
  | nil => rfl
  | cons c cp ih =>
    have hc : c ≠ 34 := fun heq => h (heq ▸ List.mem_cons_self)
    have hcp : 34 ∉ cp := fun hmem => h (List.mem_cons_of_mem _ hmem)
    have hhead : cp.head? ≠ some 34 := fun hhead => hcp (List.mem_of_head? hhead)
    rw [stringEnd_cons hc (fun _ => hhead), ih hcp]
    rfl

theorem jsonParseString_eq_none {c : UInt8} {cp : Bytes} (h : 34 ∉ cp) :
    jsonParseString (c :: cp) = none := by
  unfold jsonParseString
  rw [List.tail_cons, stringEnd_eq_none h]
  rfl

theorem readString_eq_none {st : ReadState} {c : UInt8} {cp : Bytes} (h : 34 ∉ cp) :
    readString st (c :: cp) = none := by
  unfold readString
  rw [jsonParseString_eq_none h]
  split_ifs <;> rfl

theorem strtonumLoop_rest (negative : Bool) (last remainder result : Int) (errval : StrtonumErr)
    (cp : Bytes) :
    (strtonumLoop negative last remainder result errval cp).2.2 = cp.dropWhile isdigit := by
  induction cp generalizing result errval with
  | nil => rfl
  | cons c cp ih =>
    rw [strtonumLoop, List.dropWhile_cons]
    by_cases hc : isdigit c = true
    · rw [if_pos hc, if_pos hc]
      dsimp only
      split_ifs
      · rfl
      · exact ih _ _
      · rfl
      · exact ih _ _
    · rw [if_neg hc, if_neg hc]

theorem digits_of_dropWhile {cp : Bytes} (h : cp.dropWhile isdigit = []) :
    ∀ c ∈ cp, c ≠ 34 ∧ c ≠ 92 := by
  intro c hc
  have hdigit := List.dropWhile_eq_nil_iff.mp h c hc
  constructor <;> (rintro rfl; exact absurd hdigit (by decide))

theorem sudoStrtonum_plain {str : Bytes} {minval maxval n : Int}
    (h : sudoStrtonum str minval maxval = some n) : ∀ c ∈ str, c ≠ 34 ∧ c ≠ 92 := by
  have hresult : (sudoStrtonumx str minval maxval).2 = (.valid, []) := by
    unfold sudoStrtonum at h
    split at h
    · next heq => rw [heq]
    · exact absurd h (Option.some_ne_none _).symm
  have hrest : ∀ c ∈ str.dropWhile isspace, c ≠ 34 ∧ c ≠ 92 := by
    unfold sudoStrtonumx at hresult
    split at hresult
    · exact absurd (congrArg Prod.fst hresult)
        (show StrtonumErr.invalid ≠ StrtonumErr.valid by decide)
    · dsimp only at hresult
      split at hresult
      · next cp heq =>
        have hcp : cp.dropWhile isdigit = [] := by
          have hep := congrArg Prod.snd hresult
          dsimp only at hep
          split at hep
          · rw [strtonumLoop_rest] at hep; exact hep
          · rw [strtonumLoop_rest] at hep; exact hep
        intro c hc
        rw [heq] at hc
        cases List.mem_cons.mp hc with
        | inl h => subst h; decide
        | inr h => exact digits_of_dropWhile hcp c h
      · have hep := congrArg Prod.snd hresult
        dsimp only at hep
        rw [strtonumLoop_rest] at hep
        split at hep
        · next hplus =>
          cases hl : str.dropWhile isspace with
          | nil => exact fun c hc => absurd hc List.not_mem_nil
          | cons d cp =>
            rw [hl] at hplus hep
            obtain rfl := Option.some.inj hplus
            intro c hc
            cases List.mem_cons.mp hc with
            | inl h => subst h; decide
            | inr h => exact digits_of_dropWhile hep c h
        · exact digits_of_dropWhile hep
  intro c hc
  rw [← List.takeWhile_append_dropWhile (p := isspace) (l := str)] at hc
  cases List.mem_append.mp hc with
  | inl h => exact isspace_plain c (List.mem_takeWhile_imp h)
  | inr h => exact hrest c h

theorem readNumber_stray {st : ReadState} {cp : Bytes} {p : ReadState × Bytes}
    (hread : readNumber st cp = some p) (h : Stray cp) : Stray p.2 := by
  unfold readNumber at hread
  split_ifs at hread
  obtain ⟨num, hnum, rfl⟩ := Option.map_eq_some_iff.mp hread
  refine Stray.append (sudoStrtonum_plain hnum) ?_
  rw [List.takeWhile_append_dropWhile]
  exact h

theorem readWord_stray {word : Bytes} {v : JsonScalar} {st : ReadState} {cp : Bytes}
    {p : ReadState × Bytes} (hword : word.all (fun c => c != 34 && c != 92) = true)
    (hread : readWord word v st cp = some p) (h : Stray cp) : Stray p.2 := by
  unfold readWord at hread
  dsimp only at hread
  split_ifs at hread with hstart
  obtain rfl := Option.some.inj hread
  rw [Bool.not_eq_true', Bool.not_eq_false] at hstart
  obtain ⟨rest, rfl⟩ := List.isPrefixOf_iff_prefix.mp hstart
  show Stray ((word ++ rest).drop word.length)
  rw [List.drop_left]
  apply Stray.append _ h
  intro c hc
  simpa using List.all_eq_true.mp hword c hc

theorem readToken_stray {st : ReadState} {cp : Bytes} {p : ReadState × Bytes}
    (hread : readToken st cp = some p) (h : Stray cp) : Stray p.2 := by
  cases cp with
  | nil => exact absurd rfl h.ne_nil
  | cons c cp =>
    have hmap : ∀ o : Option ReadState, c ≠ 34 → c ≠ 92 → o.map (·, cp) = some p → Stray p.2 := by
      intro o hquote hslash ho
      obtain ⟨st', -, rfl⟩ := Option.map_eq_some_iff.mp ho
      exact Stray.tail hquote hslash h
    rw [readToken] at hread
    split at hread
    · next hc => exact hmap _ (hc ▸ by decide) (hc ▸ by decide) hread
    · split at hread
      · next hc => exact hmap _ (hc ▸ by decide) (hc ▸ by decide) hread
      · split at hread
        · next hc => exact hmap _ (hc ▸ by decide) (hc ▸ by decide) hread
        · split at hread
          · next hc => exact hmap _ (hc ▸ by decide) (hc ▸ by decide) hread
          · split at hread
            · next hc =>
              subst hc
              cases h with
              | quote hcp =>
                rw [readString_eq_none hcp] at hread
                exact absurd hread (Option.some_ne_none _).symm
              | cons hquote _ _ => exact absurd rfl hquote
            · split at hread
              · exact readWord_stray (by decide) hread h
              · split at hread
                · exact readWord_stray (by decide) hread h
                · split at hread
                  · exact readWord_stray (by decide) hread h
                  · split at hread
                    · exact readNumber_stray hread h
                    · exact absurd hread (Option.some_ne_none _).symm

theorem skipComma_stray {st : ReadState} {cp : Bytes} (h : Stray cp) :
    Stray (skipComma st cp).2 := by
  have hskip := h.dropWhile
  unfold skipComma
  split
  · next cp' heq =>
    rw [heq] at hskip
    exact (Stray.tail (by decide) (by decide) hskip).dropWhile
  · exact hskip

theorem words_stray {n : Nat} {cp : Bytes} (hn : cp.length ≤ n) (h : Stray cp) (st : ReadState) :
    words st cp = none := by
  induction n generalizing cp st with
  | zero => exact absurd (List.length_eq_zero_iff.mp (Nat.le_zero.mp hn)) h.ne_nil
  | succ n ih =>
    have hstray := @skipComma_stray st cp h
    have hlength := skipComma_length st cp
    cases hsplit : skipComma st cp with
    | mk st' cp' =>
      rw [hsplit] at hstray hlength
      cases cp' with
      | nil => exact absurd rfl hstray.ne_nil
      | cons c cp' =>
        rw [words_token hsplit]
        cases htoken : readToken st' (c :: cp') with
        | none => rfl
        | some p =>
          have hlt := readToken_length htoken
          dsimp only at hlength
          exact ih (by omega) (readToken_stray htoken hstray) p.1

theorem stray_escape (s : Bytes) {cp : Bytes} (h : 34 ∉ cp) : Stray (escape s ++ 34 :: cp) := by
  induction s with
  | nil => exact Stray.quote h
  | cons c s ih =>
    show Stray ((escapeByte c ++ escape s) ++ 34 :: cp)
    rw [List.append_assoc]
    unfold escapeByte
    by_cases hquote : c = 34 ∨ c = 92
    · rw [if_pos hquote]
      exact Stray.slash _
    · rw [if_neg hquote]
      obtain ⟨h34, h92⟩ := not_or.mp hquote
      split_ifs
      · exact Stray.slash _
      · exact Stray.slash _
      · exact Stray.slash _
      · exact Stray.slash _
      · exact Stray.slash _
      · exact Stray.slash _
      · exact Stray.cons h34 h92 ih

end NextBSD.Iolog
