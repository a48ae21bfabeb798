import Mathlib.Data.List.Infix

/-!
# A place in a buffer

A buffer is taken apart at the place that a pointer is at.  Writing at its end is `none`.
-/

namespace NextBSD

structure Cursor where
  before : List UInt8
  after : List UInt8
  deriving DecidableEq, Repr

namespace Cursor

def start (memory : List UInt8) : Cursor := { before := [], after := memory }

def memory (p : Cursor) : List UInt8 := p.before ++ p.after

/-- `*p = c`. -/
def poke (p : Cursor) (c : UInt8) : Option Cursor :=
  match p.after with
  | [] => none
  | _ :: after => some { p with after := c :: after }

/-- `*p++ = c`. -/
def put (p : Cursor) (c : UInt8) : Option Cursor :=
  match p.after with
  | [] => none
  | _ :: after => some { before := p.before ++ [c], after := after }

def puts (p : Cursor) : List UInt8 → Option Cursor
  | [] => some p
  | c :: cs => (p.put c).bind fun p => p.puts cs

def seek (p : Cursor) (i : Nat) : Cursor :=
  { before := p.memory.take i, after := p.memory.drop i }

variable {p q : Cursor} {c : UInt8} {cs ds : List UInt8}

theorem puts_append (p : Cursor) (cs ds : List UInt8) :
    p.puts (cs ++ ds) = (p.puts cs).bind fun p => p.puts ds := by
  induction cs generalizing p with
  | nil => rfl
  | cons c cs ih =>
    show (p.put c).bind _ = ((p.put c).bind _).bind _
    rw [Option.bind_assoc]
    exact congrArg _ (funext fun p => ih p)

theorem puts_eq (h : cs.length ≤ p.after.length) :
    p.puts cs = some { before := p.before ++ cs, after := p.after.drop cs.length } := by
  induction cs generalizing p with
  | nil =>
    rw [List.append_nil]
    rfl
  | cons c cs ih =>
    obtain ⟨before, _ | ⟨d, after⟩⟩ := p
    · cases h
    · show Cursor.puts { before := before ++ [c], after := after } cs = _
      rw [ih (Nat.le_of_succ_le_succ h), List.append_assoc]
      rfl

theorem put_eq (h : 0 < p.after.length) :
    p.put c = some { before := p.before ++ [c], after := p.after.drop 1 } := by
  obtain ⟨before, _ | ⟨d, after⟩⟩ := p
  · cases h
  · rfl

theorem poke_eq (h : 0 < p.after.length) :
    p.poke c = some { p with after := c :: p.after.drop 1 } := by
  obtain ⟨before, _ | ⟨d, after⟩⟩ := p
  · cases h
  · rfl

theorem seek_length {before after : List UInt8} {n : Nat} (h : before.length = n) :
    Cursor.seek { before := before, after := after } n = { before := before, after := after } := by
  subst h
  unfold seek memory
  rw [List.take_left, List.drop_left]

end Cursor
end NextBSD
