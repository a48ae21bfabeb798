import Mathlib.Data.List.Basic

/-!
# Programs with a guarantee

A program changes a state and may run out of fuel.  `Guarantees P m R Q` is partial
correctness with a guarantee: started where `P` holds, `m` moves along `R` and ends
where `Q` holds.  `R` is a preorder, so guarantees compose, and what `R` keeps is
added by the frame rule.
-/

namespace NextBSD.Program

universe u

variable {σ α β γ ε : Type u}

/-- `m`, started where `P` holds, moves along `R` and ends where `Q` holds. -/
def Guarantees (P : σ → Prop) (m : StateT σ Option α) (R : σ → σ → Prop) (Q : α → σ → Prop) :
    Prop :=
  ∀ ⦃s a s'⦄, P s → m.run s = some (a, s') → R s s' ∧ Q a s'

/-- A loop over a list with an accumulator; an iteration can leave it with a result. -/
def foldUntil (f : β → α → StateT σ Option (Except ε β)) : β → List α → StateT σ Option (Except ε β)
  | b, [] => pure (.ok b)
  | b, a :: l => do
    match ← f b a with
    | .error e => pure (.error e)
    | .ok b => foldUntil f b l

def Outcome (E : ε → σ → Prop) (J : β → σ → Prop) : Except ε β → σ → Prop
  | .error e => E e
  | .ok b => J b

variable {P P' : σ → Prop} {m : StateT σ Option α} {R : σ → σ → Prop} {Q Q' : α → σ → Prop}

theorem Guarantees.consequence (h : Guarantees P m R Q) (hpre : ∀ s, P' s → P s)
    (hpost : ∀ a s, Q a s → Q' a s) : Guarantees P' m R Q' := by
  intro s a s' hs hrun
  have hq := h (hpre s hs) hrun
  exact ⟨hq.1, hpost a s' hq.2⟩

theorem Guarantees.frame (h : Guarantees P m R Q) {F : σ → Prop}
    (hkeep : ∀ s s', R s s' → F s → F s') :
    Guarantees (fun s => P s ∧ F s) m R (fun a s => Q a s ∧ F s) := by
  intro s a s' hs hrun
  have hq := h hs.1 hrun
  exact ⟨hq.1, hq.2, hkeep s s' hq.1 hs.2⟩

theorem guarantees_assume {p : Prop} (h : p → Guarantees P m R Q) :
    Guarantees (fun s => p ∧ P s) m R Q :=
  fun _ _ _ hs hrun => h hs.1 hs.2 hrun

theorem guarantees_failure : Guarantees P (failure : StateT σ Option α) R Q := by
  intro s a s' _ hrun
  cases hrun

theorem guarantees_pure [Std.Refl R] {a : α} (h : ∀ s, P s → Q a s) :
    Guarantees P (pure a) R Q := by
  intro s b s' hs hrun
  cases hrun
  exact ⟨Std.Refl.refl s, h s hs⟩

theorem guarantees_get [Std.Refl R] :
    Guarantees P (get : StateT σ Option σ) R (fun u s => u = s ∧ P s) := by
  intro s b s' hs hrun
  cases hrun
  exact ⟨Std.Refl.refl s, rfl, hs⟩

theorem guarantees_modify {f : σ → σ} {Q : PUnit → σ → Prop}
    (hstep : ∀ s, P s → R s (f s) ∧ Q ⟨⟩ (f s)) : Guarantees P (modify f) R Q := by
  intro s b s' hs hrun
  cases hrun
  exact hstep s hs

theorem Guarantees.bind [IsTrans σ R] {f : α → StateT σ Option γ} {Q' : γ → σ → Prop}
    (h : Guarantees P m R Q) (hf : ∀ a, Guarantees (Q a) (f a) R Q') :
    Guarantees P (m >>= f) R Q' := by
  intro s c s'' hs hrun
  rw [StateT.run_bind] at hrun
  cases hm : m.run s with
  | none =>
    rw [hm] at hrun
    cases hrun
  | some r =>
    rw [hm] at hrun
    have hq := h hs hm
    have hq' := hf r.1 hq.2 hrun
    exact ⟨IsTrans.trans s r.2 s'' hq.1 hq'.1, hq'.2⟩

theorem guarantees_foldUntil [Std.Refl R] [IsTrans σ R]
    {f : β → α → StateT σ Option (Except ε β)} {l : List α} {E : ε → σ → Prop} {J : β → σ → Prop}
    (hbody : ∀ b, ∀ a ∈ l, Guarantees (J b) (f b a) R (Outcome E J)) (b : β) :
    Guarantees (J b) (foldUntil f b l) R (Outcome E J) := by
  induction l generalizing b with
  | nil => exact guarantees_pure fun s hs => hs
  | cons a l ih =>
    have hrest := ih fun b a ha => hbody b a (List.mem_cons_of_mem _ ha)
    refine (hbody b a List.mem_cons_self).bind fun r => ?_
    cases r with
    | error e => exact guarantees_pure fun s hs => hs
    | ok b => exact hrest b

def Moves (m : StateT σ Option α) (R : σ → σ → Prop) : Prop :=
  Guarantees (fun _ => True) m R fun _ _ => True

theorem Moves.guarantees (h : Moves m R) : Guarantees P m R fun _ _ => True :=
  Guarantees.consequence h (fun _ _ => trivial) fun _ _ hq => hq

theorem Guarantees.moves (h : Guarantees (fun _ => True) m R Q) : Moves m R :=
  h.consequence (fun _ hs => hs) fun _ _ _ => trivial

theorem Moves.keeps (h : Moves m R) (hkeep : ∀ s s', R s s' → P s → P s') :
    Guarantees P m R fun _ => P :=
  (Guarantees.frame h hkeep).consequence (fun _ hs => ⟨trivial, hs⟩) fun _ _ hq => hq.2

theorem moves_pure [Std.Refl R] {a : α} : Moves (pure a : StateT σ Option α) R :=
  guarantees_pure fun _ _ => trivial

theorem moves_modify {f : σ → σ} (hstep : ∀ s, R s (f s)) :
    Moves (modify f : StateT σ Option PUnit) R :=
  guarantees_modify fun s _ => ⟨hstep s, trivial⟩

theorem Moves.bind [IsTrans σ R] {f : α → StateT σ Option γ} (h : Moves m R)
    (hf : ∀ a, Moves (f a) R) : Moves (m >>= f) R :=
  Guarantees.bind h hf

theorem moves_get_bind [Std.Refl R] [IsTrans σ R] {f : σ → StateT σ Option γ}
    (hf : ∀ s, Moves (f s) R) : Moves (get >>= f) R :=
  guarantees_get.bind fun s => (hf s).guarantees

theorem moves_foldUntil [Std.Refl R] [IsTrans σ R] {f : β → α → StateT σ Option (Except ε β)}
    {l : List α} (hbody : ∀ b, ∀ a ∈ l, Moves (f b a) R) (b : β) : Moves (foldUntil f b l) R := by
  have hloop := guarantees_foldUntil (E := fun _ _ => True) (J := fun _ _ => True)
    (fun b a ha => (hbody b a ha).consequence (fun _ hs => hs) fun r _ _ => by cases r <;> trivial) b
  exact hloop.moves

theorem moves_foldlM [Std.Refl R] [IsTrans σ R] {f : β → α → StateT σ Option β}
    (hbody : ∀ b a, Moves (f b a) R) (l : List α) (b : β) : Moves (l.foldlM f b) R := by
  induction l generalizing b with
  | nil => exact moves_pure
  | cons a l ih =>
    rw [List.foldlM_cons]
    exact (hbody b a).bind ih

theorem moves_forM [Std.Refl R] [IsTrans σ R] {f : α → StateT σ Option PUnit} {l : List α}
    (hbody : ∀ a ∈ l, Moves (f a) R) : Moves (l.forM f) R := by
  induction l with
  | nil => exact moves_pure
  | cons a l ih =>
    refine (hbody a List.mem_cons_self).bind fun _ => ?_
    exact ih fun b hb => hbody b (List.mem_cons_of_mem _ hb)

end NextBSD.Program
