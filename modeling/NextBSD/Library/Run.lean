import Mathlib.Data.List.Induction
import Mathlib.Init
import Mathlib.Logic.Function.Basic

/-!
# Loops that may not end

A round of a loop leads to another state, or out of the loop with a result.  What holds of the
states that are reached is shown round by round, and a loop ends if a measure falls with each
round.
-/

namespace NextBSD.Rounds

universe u v

variable {σ : Type u} {β : Type v} (step : σ → σ ⊕ β)

def run : Nat → σ → Option β
  | 0, _ => none
  | n + 1, s =>
    match step s with
    | .inl s' => run n s'
    | .inr b => some b

def Returns (s : σ) (b : β) : Prop := ∃ n, run step n s = some b

inductive Reaches (s : σ) : σ → Prop
  | refl : Reaches s s
  | next {t t' : σ} (h : Reaches s t) (hstep : step t = .inl t') : Reaches s t'

variable {step} {s t : σ} {b b' : β}

theorem Reaches.invariant {P : σ → Prop} (hs : P s)
    (hkeep : ∀ {t t'}, Reaches step s t → P t → step t = .inl t' → P t') (h : Reaches step s t) :
    P t := by
  induction h with
  | refl => exact hs
  | next h hstep ih => exact hkeep h ih hstep

theorem returns_of_next (h : step s = .inl t) : Returns step s b ↔ Returns step t b := by
  constructor
  · rintro ⟨_ | n, hn⟩
    · cases hn
    · unfold run at hn
      rw [h] at hn
      exact ⟨n, hn⟩
  · rintro ⟨n, hn⟩
    refine ⟨n + 1, ?_⟩
    unfold run
    rw [h]
    exact hn

theorem returns_of_stop (h : step s = .inr b) : Returns step s b' ↔ b' = b := by
  constructor
  · rintro ⟨_ | n, hn⟩
    · cases hn
    · unfold run at hn
      rw [h] at hn
      exact (Option.some.inj hn).symm
  · rintro rfl
    refine ⟨1, ?_⟩
    unfold run
    rw [h]

theorem Reaches.returns_iff (h : Reaches step s t) : Returns step s b ↔ Returns step t b := by
  induction h with
  | refl => exact Iff.rfl
  | next _ hstep ih => exact ih.trans (returns_of_next hstep)

theorem Returns.reaches (h : Returns step s b) : ∃ t, Reaches step s t ∧ step t = .inr b := by
  obtain ⟨n, hn⟩ := h
  have hall : ∀ n t, Reaches step s t → run step n t = some b →
      ∃ t', Reaches step s t' ∧ step t' = .inr b := by
    intro n
    induction n with
    | zero => intro t _ hn; cases hn
    | succ n ih =>
      intro t ht hn
      unfold run at hn
      cases hstep : step t with
      | inl t' =>
        rw [hstep] at hn
        exact ih t' (ht.next hstep) hn
      | inr b' =>
        rw [hstep] at hn
        cases Option.some.inj hn
        exact ⟨t, ht, hstep⟩
  exact hall n s .refl hn

theorem Returns.unique (h : Returns step s b) (h' : Returns step s b') : b = b' := by
  obtain ⟨t, ht, hstop⟩ := h.reaches
  exact ((returns_of_stop hstop).mp (ht.returns_iff.mp h')).symm

theorem exists_returns (m : σ → Nat)
    (hfall : ∀ {t t'}, Reaches step s t → step t = .inl t' → m t' < m t) :
    ∃ b, Returns step s b := by
  have hall : ∀ n t, Reaches step s t → m t < n → ∃ b, Returns step t b := by
    intro n
    induction n with
    | zero => intro t _ hn; omega
    | succ n ih =>
      intro t ht hn
      cases hstep : step t with
      | inl t' =>
        have hlt := hfall ht hstep
        obtain ⟨b, hb⟩ := ih t' (ht.next hstep) (by omega)
        exact ⟨b, (returns_of_next hstep).mpr hb⟩
      | inr b => exact ⟨b, (returns_of_stop hstep).mpr rfl⟩
  exact hall _ s .refl (Nat.lt_succ_self _)

theorem not_returns (h : ∀ {t}, Reaches step s t → ∃ t', step t = .inl t') :
    ¬ Returns step s b := by
  intro hb
  obtain ⟨t, ht, hstop⟩ := hb.reaches
  obtain ⟨t', hnext⟩ := h ht
  rw [hnext] at hstop
  cases hstop

end NextBSD.Rounds

/-!
## Properties along a run

A loop over a list is a fold.  `Along` says of every step of the fold, in the state
before it and with the element it handles, that a property holds.  Two properties
agree along a run if they agree in every state that an invariant allows.
-/

namespace NextBSD.Run

universe u v

variable {σ : Type u} {α : Type v}

def Along (f : σ → α → σ) (Q : σ → α → Prop) : σ → List α → Prop
  | _, [] => True
  | s, a :: l => Q s a ∧ Along f Q (f s a) l

variable {f : σ → α → σ} {Q R : σ → α → Prop} {s : σ} {l : List α}

theorem foldl_of_along (P : σ → Prop) (hkeep : ∀ s, ∀ a ∈ l, P s → Q s a → P (f s a))
    (hs : P s) (h : Along f Q s l) : P (l.foldl f s) := by
  induction l generalizing s with
  | nil => exact hs
  | cons a l ih =>
    have ha := hkeep s a List.mem_cons_self hs h.1
    exact ih (fun s b hb => hkeep s b (List.mem_cons_of_mem _ hb)) ha h.2

theorem along_congr (P : σ → Prop) (hiff : ∀ s, ∀ a ∈ l, P s → (Q s a ↔ R s a))
    (hkeep : ∀ s, ∀ a ∈ l, P s → Q s a → P (f s a)) (hs : P s) :
    Along f Q s l ↔ Along f R s l := by
  induction l generalizing s with
  | nil => exact Iff.rfl
  | cons a l ih =>
    have htail (ha : Q s a) := ih (fun s b hb => hiff s b (List.mem_cons_of_mem _ hb))
      (fun s b hb => hkeep s b (List.mem_cons_of_mem _ hb)) (hkeep s a List.mem_cons_self hs ha)
    have hhead := hiff s a List.mem_cons_self hs
    constructor
    · intro h
      exact ⟨hhead.mp h.1, (htail h.1).mp h.2⟩
    · intro h
      have ha := hhead.mpr h.1
      exact ⟨ha, (htail ha).mpr h.2⟩

theorem foldl_history (P : List α → σ → Prop) (hnil : P [] s)
    (hstep : ∀ history a, P history (history.foldl f s) →
      P (history ++ [a]) (f (history.foldl f s) a)) : P l (l.foldl f s) := by
  induction l using List.reverseRecOn with
  | nil => exact hnil
  | append_singleton history a ih =>
    rw [List.foldl_append]
    exact hstep history a ih

structure Part (σ : Type u) (β : Type v) where
  get : σ → β
  put : β → σ → σ
  get_put (b : β) (s : σ) : get (put b s) = b
  put_put (b c : β) (s : σ) : put b (put c s) = put b s
  put_get (s : σ) : put (get s) s = s

section Fallible

universe w

variable {ε : Type w} {β : Type v} {γ : Type v}

theorem foldlM_part (P : Part σ β) {f : σ → γ → Except ε σ} {g : β → γ → Except ε β} {l : List γ}
    (h : ∀ s, ∀ a ∈ l, f s a = (g (P.get s) a).map (fun b => P.put b s)) (s : σ) :
    l.foldlM f s = (l.foldlM g (P.get s)).map (fun b => P.put b s) := by
  induction l generalizing s with
  | nil =>
    show Except.ok s = Except.ok (P.put (P.get s) s)
    rw [P.put_get]
  | cons a l ih =>
    rw [List.foldlM_cons, List.foldlM_cons, h s a List.mem_cons_self]
    cases g (P.get s) a with
    | error e => rfl
    | ok b =>
      show l.foldlM f (P.put b s) = (l.foldlM g b).map (fun b => P.put b s)
      rw [ih (fun s a ha => h s a (List.mem_cons_of_mem _ ha)), P.get_put]
      congr 1
      funext c
      exact P.put_put c b s

theorem foldlM_part_ok (P : Part σ β) {f : σ → γ → Except ε σ} (g : β → γ → β) {l : List γ}
    (h : ∀ s, ∀ a ∈ l, f s a = .ok (P.put (g (P.get s) a) s)) (s : σ) :
    l.foldlM f s = .ok (P.put (l.foldl g (P.get s)) s) := by
  rw [foldlM_part P (g := fun b a => .ok (g b a)) h]
  have hpure : l.foldlM (fun b a => (.ok (g b a) : Except ε β)) (P.get s) =
      .ok (l.foldl g (P.get s)) := List.foldlM_pure
  rw [hpure]
  rfl

theorem foldlM_silent {view : σ → β} {f : σ → γ → Except ε σ} {l : List γ}
    (h : ∀ s, ∀ a ∈ l, (f s a).map view = .ok (view s)) (s : σ) :
    (l.foldlM f s).map view = .ok (view s) := by
  induction l generalizing s with
  | nil => rfl
  | cons a l ih =>
    have hstep := h s a List.mem_cons_self
    rw [List.foldlM_cons]
    cases hf : f s a with
    | error e =>
      rw [hf] at hstep
      exact nomatch hstep
    | ok s' =>
      rw [hf] at hstep
      have hview : view s' = view s := Except.ok.inj hstep
      have htail := ih (fun s a ha => h s a (List.mem_cons_of_mem _ ha)) s'
      rw [hview] at htail
      exact htail

end Fallible

theorem foldl_update {α : Type u} {β : Type v} [DecidableEq α] (src g : α → β) (l : List α) :
    l.foldl (fun g a => Function.update g a (src a)) g =
      fun a => if a ∈ l then src a else g a := by
  induction l generalizing g with
  | nil => rfl
  | cons a l ih =>
    rw [List.foldl_cons, ih]
    funext b
    by_cases hsame : b = a
    · subst hsame
      rw [if_pos List.mem_cons_self, Function.update_self]
      exact ite_self _
    · have hiff : b ∈ a :: l ↔ b ∈ l :=
        ⟨fun h => (List.mem_cons.mp h).resolve_left hsame, List.mem_cons_of_mem _⟩
      simp only [hiff]
      rw [Function.update_of_ne hsame]

end NextBSD.Run
