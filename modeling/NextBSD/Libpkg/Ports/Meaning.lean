import NextBSD.Libpkg.Ports.Unrolled

/-!
# What a plist means

The lines of a plist that reach the handlers are compared with those of its unrolled text, read by
the same functions.
-/

namespace NextBSD.Libpkg.Ports

open Manifest (Bytes ascii)
open TextLines

variable {sys : System} {perform : Perform}

def Item.isFlat : Item → Bool
  | .loop _ body => body.all (fun item => !item.isLoop)
  | _ => true

/-! ## The items one after another -/

theorem Agree.outside {p : Plist} {u : Unrolled} (h : Agree p u) : p.inForLoop = false := by
  unfold Plist.inForLoop
  rw [h.stack]
  rfl

theorem Agree.readLine {parse : Plist → Bytes → Result} {p : Plist} {u : Unrolled}
    (h : Agree p u) (line : Bytes) :
    Ports.readLine parse p line = parse p (expandPlistVariables p.vars line) := by
  unfold Ports.readLine
  rw [h.outside, if_neg Bool.false_ne_true]

theorem unrollHeader_eq_some {subst : List (Bytes × Bytes)} {header : Bytes} {u : Unrolled}
    {loop : Bytes × List Bytes} (h : unrollHeader sys subst header u = some loop) :
    isOwnLine header = true ∧
      ∃ buf, substAction sys subst header u = .forHandler buf ∧ forHeader buf = some loop := by
  unfold unrollHeader at h
  by_cases hown : isOwnLine header = true
  · rw [if_pos hown] at h
    cases haction : substAction sys subst header u with
    | forHandler buf =>
      rw [haction] at h
      exact ⟨hown, buf, rfl, h⟩
    | _ =>
      rw [haction] at h
      exact nomatch h
  · rw [if_neg hown] at h
    exact nomatch h

theorem values_ne_nil {line var : Bytes} {values : List Bytes}
    (h : forHeader line = some (var, values)) : values ≠ [] := by
  unfold forHeader at h
  dsimp only at h
  split_ifs at h with hnil
  rw [← (Prod.mk.inj (Option.some.inj h)).2]
  exact hnil

variable {incl : Unrolled → Bytes → Option Unrolled} {depth : Nat}

theorem readLine_header {p : Plist} {u : Unrolled} {header buf var : Bytes} {values : List Bytes}
    (h : Agree p u) (haction : substAction sys [] header u = .forHandler buf)
    (hheader : forHeader buf = some (var, values)) :
    readLine (plistParseLine sys perform (depth + 1)) p header =
      .ok ({ p with forloopStack := [{ var := var, values := values, body := [] }] }, .ok) := by
  have haction : lineAction sys (expandPlistVariables p.vars header) = .forHandler buf := by
    rw [h.vars]
    exact haction
  have hskip : ¬ isSkipped (expandPlistVariables p.vars header) = true := by
    intro hskip
    rw [show lineAction sys (expandPlistVariables p.vars header) = .skip from if_pos hskip]
      at haction
    exact nomatch haction
  rw [h.readLine]
  unfold plistParseLine
  rw [if_neg hskip, h.outside, if_neg Bool.false_ne_true, haction]
  unfold forHandler
  dsimp only
  rw [hheader, h.stack]

theorem readLine_end {p : Plist} (h : p.inForLoop = true) :
    readLine (plistParseLine sys perform (depth + 1)) p (ascii "@end") =
      forloopExecute (plistParseLine sys perform depth) p := by
  have hskip : isSkipped (ascii "@end") = false := by decide
  have hend : isEnd (ascii "@end") = true := by decide
  unfold readLine plistParseLine
  rw [h, if_pos rfl, hskip, if_neg Bool.false_ne_true, if_pos rfl, hend, if_pos rfl]

theorem run_loop (h0 : Serves sys perform (plistParseLine sys perform depth) incl)
    {header : Bytes} {body : List Item} (hflat : ∀ item ∈ body, item.isLoop = false)
    {u u' : Unrolled} {p : Plist} {rc : Rc} (hagree : Agree p u)
    (h : unrollItem sys perform incl [] (.loop header body) u = some u')
    (hincludes : u'.includes ≤ 1) (hclean : u'.clean = true) :
    ∃ p' rc', parseLines (readLine (plistParseLine sys perform (depth + 1)))
        (Item.loop header body).render p rc = .ok (p', rc') ∧ Agree p' u' := by
  rw [unrollItem] at h
  cases hheader : unrollHeader sys [] header u with
  | none =>
    rw [hheader] at h
    exact nomatch h
  | some loop =>
    obtain ⟨var, values⟩ := loop
    rw [hheader] at h
    obtain ⟨-, buf, haction, hbuf⟩ := unrollHeader_eq_some hheader
    have hvalues : ∀ value ∈ values, 10 ∉ value := fun value hv =>
      newline_not_mem_of_forHeader hbuf hv
    have hagree' : Agree p { u with clean := u.clean && keptClean [] header } :=
      { vars := hagree.vars, handled := hagree.handled, stack := hagree.stack
        inInclude := hagree.inInclude }
    -- there is a value, so the body has been unrolled at least once
    have hown : ∀ l ∈ renderAll body, isOwnLine l = true := by
      cases values with
      | nil => exact absurd rfl (values_ne_nil hbuf)
      | cons value values =>
        have h : (unrollAll sys perform incl [(var, value)] body
            { u with clean := u.clean && keptClean [] header }).bind (fun u =>
              values.foldlM (fun u value => unrollAll sys perform incl [(var, value)] body u) u) =
            some u' := h
        obtain ⟨v, hfirst, hrest⟩ := Option.bind_eq_some_iff.mp h
        have hgrows : Grows v u' := h0.kept.foldlM
          (fun u value u' => h0.kept.unrollAll [(var, value)] body u u') hrest
        exact fun l hl =>
          (lines_of_unrollAll h0 hflat hfirst (hgrows.clean hclean) l hl).1
    obtain ⟨p', rc', hrun, hp'⟩ := @execute sys perform _ incl h0 var body hflat values values
      hvalues _ u' p .ok hagree' h hincludes hclean
    refine ⟨p', rc.first rc', ?_, hp'⟩
    have hkept : parseLines (readLine (plistParseLine sys perform (depth + 1))) (renderAll body)
        { p with forloopStack := [{ var := var, values := values, body := [] }] } (rc.first .ok) =
        .ok ({ p with forloopStack :=
          [{ var := var, values := values, body := TextLines.joinLines 10 (bodyLines body) }] },
          rc.first .ok) :=
      @accumulate sys perform depth _ hown
        { p with forloopStack := [{ var := var, values := values, body := [] }] }
        { var := var, values := values, body := [] } [] rfl (rc.first .ok)
    have hend := @readLine_end sys perform depth
      { p with forloopStack :=
        [{ var := var, values := values, body := TextLines.joinLines 10 (bodyLines body) }] } rfl
    have hexecute : forloopExecute (plistParseLine sys perform depth)
        { p with forloopStack :=
          [{ var := var, values := values, body := TextLines.joinLines 10 (bodyLines body) }] } =
        .ok (p', rc') := by
      unfold forloopExecute
      have hpop : { p with forloopStack := [] } = p := by rw [← hagree.stack]
      dsimp only
      rw [hpop]
      exact hrun
    rw [hexecute] at hend
    rw [Item.render, parseLines_cons (readLine_header hagree haction hbuf),
      parseLines_append hkept]
    have hfirst : (rc.first .ok).first rc' = rc.first rc' := by cases rc <;> rfl
    rw [parseLines_cons hend, hfirst]
    rfl

theorem run_items (h0 : Serves sys perform (plistParseLine sys perform depth) incl)
    (h1 : Serves sys perform (plistParseLine sys perform (depth + 1)) incl) {items : List Item}
    (hflat : ∀ item ∈ items, item.isFlat = true) {u u' : Unrolled} {p : Plist} {rc : Rc}
    (hagree : Agree p u) (h : unrollAll sys perform incl [] items u = some u')
    (hincludes : u'.includes ≤ 1) (hclean : u'.clean = true) :
    ∃ p' rc', parseLines (readLine (plistParseLine sys perform (depth + 1))) (renderAll items) p rc =
      .ok (p', rc') ∧ Agree p' u' := by
  induction items generalizing u p rc with
  | nil =>
    rw [unrollAll] at h
    rw [← Option.some.inj h]
    exact ⟨p, rc, rfl, hagree⟩
  | cons item items ih =>
    rw [unrollAll] at h
    obtain ⟨v, hitem, hrest⟩ := Option.bind_eq_some_iff.mp h
    have hgrows := h0.kept.unrollAll [] items v u' hrest
    have hincludesv := Nat.le_trans hgrows.includes hincludes
    have hcleanv := hgrows.clean hclean
    have hfirst : ∃ p' rc', parseLines (readLine (plistParseLine sys perform (depth + 1)))
        item.render p rc = .ok (p', rc') ∧ Agree p' v := by
      cases item with
      | line text =>
        rw [unrollItem] at hitem
        obtain ⟨-, q, hread, rfl⟩ := unrollLine_eq_some hitem
        obtain ⟨p', ret, hparse, hp'⟩ := h1.plain hagree hread
        have hline := (hagree.readLine text).trans hparse
        refine ⟨p', rc.first ret, ?_, hp' _ rfl rfl⟩
        rw [Item.render, parseLines_cons hline]
        rfl
      | incl text =>
        rw [unrollItem] at hitem
        obtain ⟨-, name, haction, hname⟩ := unrollIncl_eq_some hitem
        obtain ⟨p', ret, hparse, hp'⟩ := h1.included hagree haction hname rfl rfl hincludesv hcleanv
        have hline := (hagree.readLine text).trans hparse
        refine ⟨p', rc.first ret, ?_, hp'⟩
        rw [Item.render, parseLines_cons hline]
        rfl
      | loop header body =>
        have hbody : ∀ item ∈ body, item.isLoop = false := by
          have hall := List.all_eq_true.mp (hflat _ List.mem_cons_self)
          exact fun item hmem => by simpa using hall item hmem
        exact run_loop h0 hbody hagree hitem hincludesv hcleanv
    obtain ⟨p', rc', hrun, hp'⟩ := hfirst
    rw [renderAll, parseLines_append hrun]
    exact ih (fun item hmem => hflat item (List.mem_cons_of_mem _ hmem)) hp' hrest

theorem serves_none (depth : Nat) :
    Serves sys perform (plistParseLine sys perform (depth + 1)) (fun _ _ => none) where
  plain hagree hread := plistParseLine_plain depth hagree hread
  included _ _ hname := (Option.some_ne_none _ hname.symm).elim
  grows hname := (Option.some_ne_none _ hname.symm).elim

structure Files (sys : System) (files : Bytes → Option (List Item)) : Prop where
  openat {name : Bytes} {items : List Item} : files name = some items →
    sys.openat name = some (renderAll items)
  flat {name : Bytes} {items : List Item} : files name = some items →
    ∀ item ∈ items, item.isFlat = true

theorem serves_inclFile {files : Bytes → Option (List Item)} (hfiles : Files sys files)
    (depth : Nat) :
    Serves sys perform (plistParseLine sys perform (depth + 3)) (inclFile sys perform files) where
  plain hagree hread := plistParseLine_plain (depth + 2) hagree hread
  grows := grows_inclFile
  included {p u v u' line name} hagree haction hname hplist hcount hincludes hclean := by
    have hgrows := grows_inclFile hname
    have hzero : u.includes = 0 := by
      have := hgrows.includes
      omega
    unfold inclFile at hname
    cases hfile : files name with
    | none =>
      rw [hfile] at hname
      exact nomatch hname
    | some items =>
      rw [hfile] at hname
      have haction : lineAction sys (expandPlistVariables p.vars line) = .includePlist name := by
        rw [hagree.vars]
        exact haction
      have hskip : ¬ isSkipped (expandPlistVariables p.vars line) = true := by
        intro hskip
        rw [show lineAction sys (expandPlistVariables p.vars line) = .skip from if_pos hskip]
          at haction
        exact nomatch haction
      have hflag : p.inInclude = false := by
        rw [hagree.inInclude, hzero]
        rfl
      have hinside : Agree { p with inInclude := true } v :=
        { vars := by rw [hplist]; exact hagree.vars
          handled := by rw [hplist]; exact hagree.handled
          stack := hagree.stack
          inInclude := by rw [hcount]; exact (decide_eq_true (Nat.succ_pos _)).symm }
      obtain ⟨p', rc', hrun, hp'⟩ : ∃ p' rc',
          parseLines (readLine (plistParseLine sys perform (depth + 2))) (renderAll items)
            { p with inInclude := true } .ok = .ok (p', rc') ∧ Agree p' u' :=
        run_items (serves_none depth) (serves_none (depth + 1)) (hfiles.flat hfile) hinside hname
          hincludes hclean
      refine ⟨p', rc', ?_, hp'⟩
      unfold plistParseLine
      rw [if_neg hskip, hagree.outside, if_neg Bool.false_ne_true, haction]
      unfold includePlist
      dsimp only
      rw [hflag, if_neg Bool.false_ne_true, hfiles.openat hfile]
      exact hrun

theorem run_plain (depth : Nat) {lines : List Bytes} {q q' : Plist} {p : Plist} {rc : Rc}
    (hvars : p.vars = q.vars) (hhandled : p.handled = q.handled) (hstack : p.forloopStack = [])
    (h : lines.foldlM (readPlain sys perform) q = some q') :
    ∃ p' rc', parseLines (readLine (plistParseLine sys perform (depth + 1))) lines p rc =
      .ok (p', rc') ∧ p'.handled = q'.handled := by
  induction lines generalizing p q rc with
  | nil =>
    rw [← Option.some.inj h]
    exact ⟨p, rc, rfl, hhandled⟩
  | cons line lines ih =>
    have h : (readPlain sys perform q line).bind
        (fun q => lines.foldlM (readPlain sys perform) q) = some q' := h
    obtain ⟨q1, hread, hrest⟩ := Option.bind_eq_some_iff.mp h
    have hagree : Agree p
        { text := [], plist := q, includes := if p.inInclude then 1 else 0, clean := true } :=
      { vars := hvars, handled := hhandled, stack := hstack
        inInclude := by cases p.inInclude <;> rfl }
    obtain ⟨p1, ret, hparse, hp1⟩ := plistParseLine_plain depth hagree hread
    have hp1 := hp1
      { text := [], plist := q1, includes := if p.inInclude then 1 else 0, clean := true } rfl rfl
    have hline := (hagree.readLine line).trans hparse
    rw [parseLines_cons hline]
    exact ih hp1.vars hp1.handled hp1.stack hrest

/-- The lines of the plist that reach the handlers are those of the unrolled text, and nothing is
read past the end of a body. -/
def MeansText (sys : System) (perform : Perform) (depth : Nat) (items : List Item)
    (text : List Bytes) : Prop :=
  ∃ p rc p' rc', portsParsePlist sys perform depth (renderAll items) = .ok (p, rc) ∧
    portsParsePlist sys perform depth text = .ok (p', rc') ∧ p.handled = p'.handled

def handledOf (r : Result) : Option (List Handler) := r.toOption.map (fun s => s.1.handled)

theorem not_meansText {depth : Nat} {items : List Item} {text : List Bytes}
    {handled handled' : List Handler}
    (h : handledOf (portsParsePlist sys perform depth (renderAll items)) = some handled)
    (h' : handledOf (portsParsePlist sys perform depth text) = some handled')
    (hne : handled ≠ handled') : ¬ MeansText sys perform depth items text := by
  rintro ⟨p, rc, p', rc', hrun, hrun', hsame⟩
  rw [hrun] at h
  rw [hrun'] at h'
  have hp : p.handled = handled := Option.some.inj h
  have hp' : p'.handled = handled' := Option.some.inj h'
  exact hne (hp ▸ hp' ▸ hsame)

/-- A plist means its unrolled text, if no loop is nested in another, if every `%%` that is kept in
a body is that of the loop's name, and if one file at most is included. -/
theorem meansText_of_flat (sys : System) (perform : Perform) (files : Bytes → Option (List Item))
    (hfiles : Files sys files) (items : List Item) (u : Unrolled)
    (hunroll : unroll sys perform files items = some u)
    (hflat : ∀ item ∈ items, item.isFlat = true) (hclean : u.clean = true)
    (hincludes : u.includes ≤ 1) (depth : Nat) :
    MeansText sys perform (depth + 4) items u.text := by
  have hstart : Agree plistNew Unrolled.start :=
    { vars := rfl, handled := rfl, stack := rfl, inInclude := rfl }
  obtain ⟨p, rc, hrun, hp⟩ : ∃ p rc,
      parseLines (readLine (plistParseLine sys perform (depth + 4))) (renderAll items) plistNew .ok =
        .ok (p, rc) ∧ Agree p u :=
    run_items (serves_inclFile hfiles depth) (serves_inclFile hfiles (depth + 1)) hflat hstart
      hunroll hincludes hclean
  have htext : ReadsText sys perform u :=
    (kept_readsText (fun _ _ _ => readsText_inclFile)).unrollAll [] items _ u hunroll rfl
  obtain ⟨p', rc', hrun', hp'⟩ : ∃ p' rc',
      parseLines (readLine (plistParseLine sys perform (depth + 4))) u.text plistNew .ok =
        .ok (p', rc') ∧ p'.handled = u.plist.handled :=
    run_plain (depth + 3) rfl rfl rfl htext
  exact ⟨p, rc, p', rc', hrun, hrun', hp.handled.trans hp'.symm⟩

def twoLines (name : Bytes) : Option (List Item) :=
  if name = ascii "list" then some [.line (ascii "x"), .line (ascii "y")] else none

def twoLinesSystem : System where
  strtofflags _ := none
  parseMode _ := none
  openat name := (twoLines name).map renderAll

theorem files_twoLines : Files twoLinesSystem twoLines where
  openat h := congrArg (Option.map renderAll) h
  flat {name items} h := by
    unfold twoLines at h
    split_ifs at h
    rw [← Option.some.inj h]
    decide

theorem unroll_oneLine {files : Bytes → Option (List Item)} {header line var value : Bytes}
    {u : Unrolled} (hheader : unrollHeader sys [] header Unrolled.start = some (var, [value]))
    (hkept : keptClean [] header = true)
    (hline : unrollLine sys perform [(var, value)] line Unrolled.start = some u) :
    unroll sys perform files [.loop header [.line line]] = some u := by
  have hstart : { Unrolled.start with clean := Unrolled.start.clean && true } = Unrolled.start := rfl
  rw [unroll, unrollAll, unrollItem, hheader]
  simp only [List.foldlM_cons, List.foldlM_nil, List.nil_append, unrollAll, unrollItem, hkept]
  rw [hstart, hline]
  rfl

theorem meansText_of_flat_red :
    MeansText twoLinesSystem (fun _ _ => .ok) 4
      [.loop (ascii "@for C red") [.line (ascii "%%C%%.conf")]] [ascii "red.conf"] :=
  meansText_of_flat twoLinesSystem (fun _ _ => .ok) twoLines files_twoLines
    [.loop (ascii "@for C red") [.line (ascii "%%C%%.conf")]]
    { text := [ascii "red.conf"]
      plist := { plistNew with handled := [.file (ascii "red.conf") none] }
      includes := 0, clean := true }
    (unroll_oneLine (show _ = some (ascii "C", [ascii "red"]) from rfl) rfl rfl)
    (by decide) rfl (Nat.zero_le 1) 0

/-- A name that is not that of the loop loses its percent signs. -/
theorem not_meansText_percent :
    unroll twoLinesSystem (fun _ _ => .ok) twoLines
        [.loop (ascii "@for C red") [.line (ascii "%%C%%/%%D%%")]] =
      some
        { text := [ascii "red/%%D%%"]
          plist := { plistNew with handled := [.file (ascii "red/%%D%%") none] }
          includes := 0, clean := false } ∧
      ¬ MeansText twoLinesSystem (fun _ _ => .ok) 4
        [.loop (ascii "@for C red") [.line (ascii "%%C%%/%%D%%")]] [ascii "red/%%D%%"] := by
  refine ⟨unroll_oneLine (show _ = some (ascii "C", [ascii "red"]) from rfl) rfl rfl, ?_⟩
  let frame (body : Bytes) : Plist :=
    { plistNew with
      forloopStack := [{ var := ascii "C", values := [ascii "red"], body := body }] }
  have hfor : readLine (plistParseLine twoLinesSystem (fun _ _ => .ok) 4) plistNew
      (ascii "@for C red") = .ok (frame [], .ok) := by rfl
  have hbody : readLine (plistParseLine twoLinesSystem (fun _ _ => .ok) 4) (frame [])
      (ascii "%%C%%/%%D%%") = .ok (frame (ascii "%%C%%/%%D%%\n"), .ok) := by rfl
  have hend : readLine (plistParseLine twoLinesSystem (fun _ _ => .ok) 4)
      (frame (ascii "%%C%%/%%D%%\n")) (ascii "@end") =
      .ok ({ plistNew with handled := [.file (ascii "red/D") none] }, .ok) := by rfl
  have hplain : readLine (plistParseLine twoLinesSystem (fun _ _ => .ok) 4) plistNew
      (ascii "red/%%D%%") =
      .ok ({ plistNew with handled := [.file (ascii "red/%%D%%") none] }, .ok) := by rfl
  have hrun : handledOf (portsParsePlist twoLinesSystem (fun _ _ => .ok) 4 (renderAll
      [.loop (ascii "@for C red") [.line (ascii "%%C%%/%%D%%")]])) =
      some [.file (ascii "red/D") none] := by
    unfold portsParsePlist plistParse
    simp only [renderAll, Item.render, List.append_nil, List.nil_append,
      List.cons_append]
    rw [parseLines_cons hfor, parseLines_cons hbody, parseLines_cons hend]
    rfl
  have htext : handledOf (portsParsePlist twoLinesSystem (fun _ _ => .ok) 4
      [ascii "red/%%D%%"]) = some [.file (ascii "red/%%D%%") none] := by
    unfold portsParsePlist plistParse
    rw [parseLines_cons hplain]
    rfl
  exact not_meansText hrun htext (by decide)

end NextBSD.Libpkg.Ports
