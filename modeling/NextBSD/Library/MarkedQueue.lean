import Mathlib.Data.List.Nodup
import Mathlib.Data.List.Perm.Basic
import Mathlib.Logic.Function.Basic

/-!
# Queues with a mark on their members

A queue holds each of its members once, and a mark on an element says whether it is a member.
-/

namespace NextBSD.MarkedQueue

universe u

variable {ι : Type u}

structure Marked (queue : List ι) (mark : ι → Bool) : Prop where
  nodup : queue.Nodup
  mem_iff : ∀ e, e ∈ queue ↔ mark e = true

variable {queue queue' : List ι} {mark : ι → Bool} {e : ι}

theorem marked_nil : Marked ([] : List ι) (fun _ => false) :=
  ⟨List.nodup_nil, fun _ => ⟨fun h => absurd h List.not_mem_nil, fun h => absurd h (by simp)⟩⟩

variable [DecidableEq ι]

theorem Marked.erase (h : Marked queue mark) (e : ι) :
    Marked (queue.erase e) (Function.update mark e false) := by
  refine ⟨h.nodup.erase e, fun x => ?_⟩
  rw [h.nodup.mem_erase_iff]
  by_cases hx : x = e
  · subst hx
    simp
  · rw [Function.update_of_ne hx, h.mem_iff]
    exact and_iff_right hx

theorem Marked.insert (h : Marked queue mark) (he : mark e = false)
    (hqueue : queue'.Perm (e :: queue)) : Marked queue' (Function.update mark e true) := by
  have hnew : e ∉ queue := by
    rw [h.mem_iff, he]
    exact Bool.false_ne_true
  refine ⟨hqueue.nodup_iff.mpr (List.nodup_cons.mpr ⟨hnew, h.nodup⟩), fun x => ?_⟩
  rw [hqueue.mem_iff, List.mem_cons]
  by_cases hx : x = e
  · subst hx
    simp
  · rw [Function.update_of_ne hx, h.mem_iff]
    exact or_iff_right hx

theorem Marked.erase_of_not (h : Marked queue mark) (he : mark e = false) : queue.erase e = queue := by
  apply List.erase_of_not_mem
  rw [h.mem_iff, he]
  exact Bool.false_ne_true

end NextBSD.MarkedQueue
