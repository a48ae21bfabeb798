import NextBSD.Libpkg.Ports.Simulation

/-!
# Loops and inclusions as they are read

A loop is read in three parts: its header adds a frame, its lines are kept in the frame's body, and
`@end` replays the body for each value.
-/

namespace NextBSD.Libpkg.Ports

open Manifest (Bytes ascii)
open TextLines

variable {sys : System} {perform : Perform} {parse : Plist → Bytes → Result}
variable {incl : Unrolled → Bytes → Option Unrolled}

theorem parseLines_cons {line : Bytes} {lines : List Bytes} {p p' : Plist} {rc ret : Rc}
    (h : parse p line = .ok (p', ret)) :
    parseLines parse (line :: lines) p rc = parseLines parse lines p' (rc.first ret) := by
  unfold parseLines
  rw [List.foldlM_cons]
  dsimp only
  rw [h]
  rfl

theorem parseLines_append {lines lines' : List Bytes} {p p' : Plist} {rc rc' : Rc}
    (h : parseLines parse lines p rc = .ok (p', rc')) :
    parseLines parse (lines ++ lines') p rc = parseLines parse lines' p' rc' := by
  unfold parseLines at *
  rw [List.foldlM_append, h]
  rfl

/-! ## The body of a loop -/

def Item.isLoop : Item → Bool
  | .loop _ _ => true
  | _ => false

def bodyLines (body : List Item) : List Bytes := (renderAll body).filter (fun l => !isSkipped l)

theorem bodyLines_cons_skipped {item : Item} {text : Bytes} (hitem : item.render = [text])
    (h : isSkipped text = true) (body : List Item) : bodyLines (item :: body) = bodyLines body := by
  unfold bodyLines
  rw [renderAll, hitem, List.singleton_append, List.filter_cons_of_neg (by rw [h]; decide)]

theorem bodyLines_cons_kept {item : Item} {text : Bytes} (hitem : item.render = [text])
    (h : isSkipped text = false) (body : List Item) :
    bodyLines (item :: body) = text :: bodyLines body := by
  unfold bodyLines
  rw [renderAll, hitem, List.singleton_append, List.filter_cons_of_pos (by rw [h]; decide)]

theorem lines_of_unrollAll (hs : Serves sys perform parse incl) {subst : List (Bytes × Bytes)}
    {body : List Item} (hflat : ∀ item ∈ body, item.isLoop = false) {u u' : Unrolled}
    (h : unrollAll sys perform incl subst body u = some u') (hclean : u'.clean = true) :
    ∀ l ∈ renderAll body, isOwnLine l = true ∧ keptClean subst l = true := by
  induction body generalizing u with
  | nil => exact fun l hl => absurd hl List.not_mem_nil
  | cons item body ih =>
    rw [unrollAll] at h
    obtain ⟨v, hitem, hrest⟩ := Option.bind_eq_some_iff.mp h
    have htail := ih (fun i hi => hflat i (List.mem_cons_of_mem _ hi)) hrest
    have hv : v.clean = true := (hs.kept.unrollAll subst body v u' hrest).clean hclean
    have hhead : ∀ l ∈ item.render, isOwnLine l = true ∧ keptClean subst l = true := by
      cases item with
      | line text =>
        rw [unrollItem] at hitem
        obtain ⟨hown, p, -, rfl⟩ := unrollLine_eq_some hitem
        intro l hl
        rw [Item.render] at hl
        rw [List.mem_singleton.mp hl]
        exact ⟨hown, ((Bool.and_eq_true _ _).mp hv).2⟩
      | incl text =>
        rw [unrollItem] at hitem
        obtain ⟨hown, name, -, hname⟩ := unrollIncl_eq_some hitem
        intro l hl
        rw [Item.render] at hl
        rw [List.mem_singleton.mp hl]
        exact ⟨hown, ((Bool.and_eq_true _ _).mp ((hs.grows hname).clean hv)).2⟩
      | loop header body => exact nomatch hflat _ List.mem_cons_self
    intro l hl
    rw [renderAll] at hl
    cases List.mem_append.mp hl with
    | inl hl => exact hhead l hl
    | inr hl => exact htail l hl

theorem replay (hs : Serves sys perform parse incl) {var value : Bytes} {body : List Item}
    (hflat : ∀ item ∈ body, item.isLoop = false) {u u' : Unrolled} {p : Plist} {rc : Rc}
    (hagree : Agree p u) (h : unrollAll sys perform incl [(var, value)] body u = some u')
    (hincludes : u'.includes ≤ 1) (hclean : u'.clean = true) :
    ∃ p' rc', parseLines (replayLine parse)
        ((bodyLines body).map (replace (occurrence var) value)) p rc = .ok (p', rc') ∧
      Agree p' u' := by
  induction body generalizing u p rc with
  | nil =>
    rw [unrollAll] at h
    rw [← Option.some.inj h]
    exact ⟨p, rc, rfl, hagree⟩
  | cons item body ih =>
    rw [unrollAll] at h
    obtain ⟨v, hitem, hrest⟩ := Option.bind_eq_some_iff.mp h
    have hflat' := fun i hi => hflat i (List.mem_cons_of_mem _ hi)
    have hgrows := hs.kept.unrollAll _ body v u' hrest
    cases item with
    | line text =>
      rw [unrollItem] at hitem
      obtain ⟨-, q, hread, rfl⟩ := unrollLine_eq_some hitem
      by_cases hskip : isSkipped text = true
      · -- the body does not hold the line, and it changes nothing in the unrolled text
        have haction := substAction_skipped sys [(var, value)] u hskip
        have hsame : q = u.plist := by
          unfold readPlain at hread
          rw [show lineAction sys _ = .skip from haction] at hread
          exact (Option.some.inj hread).symm
        rw [bodyLines_cons_skipped rfl hskip]
        refine ih hflat' ?_ hrest
        exact
          { vars := by rw [hagree.vars, hsame], handled := by rw [hagree.handled, hsame]
            stack := hagree.stack, inInclude := hagree.inInclude }
      · rw [bodyLines_cons_kept rfl (Bool.eq_false_iff.mpr hskip), List.map_cons]
        obtain ⟨p', ret, hparse, hp'⟩ := hs.plain hagree hread
        have hparse : replayLine parse p (replace (occurrence var) value text) = .ok (p', ret) :=
          hparse
        rw [parseLines_cons hparse]
        refine ih hflat' ?_ hrest
        exact hp' _ rfl rfl
    | incl text =>
      rw [unrollItem] at hitem
      obtain ⟨-, name, haction, hname⟩ := unrollIncl_eq_some hitem
      by_cases hskip : isSkipped text = true
      · rw [substAction_skipped sys [(var, value)] u hskip] at haction
        exact nomatch haction
      · rw [bodyLines_cons_kept rfl (Bool.eq_false_iff.mpr hskip), List.map_cons]
        obtain ⟨p', ret, hparse, hp'⟩ := hs.included hagree haction hname rfl rfl
          (Nat.le_trans hgrows.includes hincludes) (hgrows.clean hclean)
        have hparse : replayLine parse p (replace (occurrence var) value text) = .ok (p', ret) :=
          hparse
        rw [parseLines_cons hparse]
        exact ih hflat' hp' hrest
    | loop header body => exact nomatch hflat _ List.mem_cons_self

theorem substitute_body {var value : Bytes} {body : List Item}
    (h : ∀ l ∈ renderAll body, isOwnLine l = true ∧ keptClean [(var, value)] l = true)
    (hvalue : 10 ∉ value) :
    ∃ expanded, forloopSubstituteVar var value (TextLines.joinLines 10 (bodyLines body)) = some expanded ∧
      splitLines 10 expanded = (bodyLines body).map (replace (occurrence var) value) := by
  have hkept : ∀ l ∈ bodyLines body, isOwnLine l = true ∧ cleanFrom var 0 l = true := by
    intro l hl
    obtain ⟨hmem, hskip⟩ := List.mem_filter.mp hl
    obtain ⟨hown, hclean⟩ := h l hmem
    have hskip : isSkipped l = false := by simpa using hskip
    unfold keptClean at hclean
    rw [hskip, Bool.false_or] at hclean
    exact ⟨hown, ((Bool.and_eq_true _ _).mp hclean).1⟩
  have hnewline : ∀ l ∈ (bodyLines body).map (replace (occurrence var) value), 10 ∉ l := by
    intro l hl
    obtain ⟨l', hl', rfl⟩ := List.mem_map.mp hl
    have hown := (hkept l' hl').1
    unfold isOwnLine at hown
    have hl'newline : 10 ∉ l' := by simpa using ((Bool.and_eq_true _ _).mp hown).2
    exact newline_not_mem_replace hvalue hl'newline
  exact ⟨_, forloopSubstituteVar_joinLines var value (fun l hl => (hkept l hl).2),
    splitLines_joinLines hnewline⟩

theorem accumulate (depth : Nat) {lines : List Bytes} (hown : ∀ l ∈ lines, isOwnLine l = true)
    {p : Plist} {f : Frame} {next : List Frame} (hstack : p.forloopStack = f :: next) (rc : Rc) :
    parseLines (readLine (plistParseLine sys perform (depth + 1))) lines p rc =
      .ok ({ p with
        forloopStack :=
          { f with body := f.body ++ TextLines.joinLines 10 (lines.filter (fun l => !isSkipped l)) } ::
            next }, rc) := by
  induction lines generalizing p f with
  | nil =>
    show Except.ok (p, rc) = Except.ok ({ p with forloopStack := _ }, rc)
    rw [show TextLines.joinLines 10 (List.filter (fun l => !isSkipped l) []) = [] from rfl,
      List.append_nil,
      ← hstack]
  | cons line lines ih =>
    have hinside : p.inForLoop = true := by
      unfold Plist.inForLoop
      rw [hstack]
      rfl
    have hopen : isEnd line = false := by
      have hline := hown line List.mem_cons_self
      unfold isOwnLine at hline
      simpa using ((Bool.and_eq_true _ _).mp hline).1
    have hlines := fun l hl => hown l (List.mem_cons_of_mem _ hl)
    by_cases hskip : isSkipped line = true
    · have hread : readLine (plistParseLine sys perform (depth + 1)) p line = .ok (p, .ok) := by
        unfold readLine plistParseLine
        rw [hinside, if_pos rfl, if_pos hskip]
      rw [parseLines_cons hread, List.filter_cons_of_neg (by rw [hskip]; decide)]
      have hfirst : rc.first .ok = rc := by cases rc <;> rfl
      rw [hfirst]
      exact ih hlines hstack
    · have hread : readLine (plistParseLine sys perform (depth + 1)) p line =
          .ok (p.appendBody (line ++ [10]), .ok) := by
        unfold readLine plistParseLine
        rw [hinside, if_pos rfl, if_neg hskip, if_pos rfl, hopen, if_neg Bool.false_ne_true]
      have happend : p.appendBody (line ++ [10]) =
          { p with forloopStack := { f with body := f.body ++ (line ++ [10]) } :: next } := by
        unfold Plist.appendBody
        rw [hstack]
      rw [parseLines_cons hread, List.filter_cons_of_pos (by simpa using hskip), happend]
      have hfirst : rc.first .ok = rc := by cases rc <;> rfl
      have hbody : TextLines.joinLines 10 (line :: lines.filter (fun l => !isSkipped l)) =
          (line ++ [10]) ++ TextLines.joinLines 10 (lines.filter (fun l => !isSkipped l)) := rfl
      rw [hfirst, hbody, ← List.append_assoc f.body (line ++ [10])]
      refine @ih hlines _ { f with body := f.body ++ (line ++ [10]) } ?_
      rfl

theorem execute (hs : Serves sys perform parse incl) {var : Bytes} {body : List Item}
    (hflat : ∀ item ∈ body, item.isLoop = false) {all : List Bytes} {values : List Bytes}
    (hvalues : ∀ value ∈ values, 10 ∉ value) {u u' : Unrolled} {p : Plist} {rc : Rc}
    (hagree : Agree p u)
    (h : values.foldlM (fun u value => unrollAll sys perform incl [(var, value)] body u) u =
      some u') (hincludes : u'.includes ≤ 1) (hclean : u'.clean = true) :
    ∃ p' rc', values.foldlM
        (executeValue parse { var := var, values := all, body := TextLines.joinLines 10 (bodyLines body) })
        (p, rc) = .ok (p', rc') ∧ Agree p' u' := by
  induction values generalizing u p rc with
  | nil =>
    rw [← Option.some.inj h]
    exact ⟨p, rc, rfl, hagree⟩
  | cons value values ih =>
    rw [List.foldlM_cons] at h
    cases hfirst : unrollAll sys perform incl [(var, value)] body u with
    | none =>
      rw [hfirst] at h
      exact nomatch h
    | some v =>
      rw [hfirst] at h
      have hgrows : Grows v u' := hs.kept.foldlM
        (fun u value u' => hs.kept.unrollAll [(var, value)] body u u') h
      obtain ⟨p', rc', hrun, hagree'⟩ : ∃ p' rc', parseLines (replayLine parse)
          ((bodyLines body).map (replace (occurrence var) value)) p rc = .ok (p', rc') ∧
          Agree p' v :=
        replay hs hflat hagree hfirst (Nat.le_trans hgrows.includes hincludes)
          (hgrows.clean hclean)
      obtain ⟨expanded, hsubst, hsplit⟩ := substitute_body
        (lines_of_unrollAll hs hflat hfirst (hgrows.clean hclean))
        (hvalues value List.mem_cons_self)
      have houtside : p.inForLoop = false := by
        unfold Plist.inForLoop
        rw [hagree.stack]
        rfl
      have hvalue : executeValue parse
          { var := var, values := all, body := TextLines.joinLines 10 (bodyLines body) } (p, rc) value =
          .ok (p', rc') := by
        unfold executeValue
        rw [hsubst]
        dsimp only
        rw [houtside, if_neg Bool.false_ne_true, hsplit, hrun]
      rw [List.foldlM_cons, hvalue]
      exact ih (fun value hv => hvalues value (List.mem_cons_of_mem _ hv)) hagree' h

end NextBSD.Libpkg.Ports
