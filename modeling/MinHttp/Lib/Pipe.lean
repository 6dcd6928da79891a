import Mathlib.Data.List.Basic
import Mathlib.Tactic.Common

/-! A pipe: symbols leave it in the order they came in, at most `cap` of them
are in it at a time, and either side sees when the other has closed its end. -/
namespace Lib

structure Pipe (α : Type*) where
  content : List α
  reader : Bool
  writer : Bool
  deriving DecidableEq, Repr

variable {α : Type*}

def Pipe.new : Pipe α := ⟨[], true, true⟩

/-- A write of `asked` symbols may put `n` of them in. -/
structure Pipe.Accepts (p : Pipe α) (cap n asked : Nat) : Prop where
  open_ : p.reader = true
  pos : 0 < n
  le : n ≤ asked
  room : p.content.length + n ≤ cap

/-- A read of up to `asked` symbols may take `n`. -/
structure Pipe.Yields (p : Pipe α) (n asked : Nat) : Prop where
  pos : 0 < n
  le : n ≤ asked
  there : n ≤ p.content.length

/-- Nothing is left and nothing can come. -/
structure Pipe.Ended (p : Pipe α) : Prop where
  empty : p.content = []
  closed : p.writer = false

def Pipe.put (p : Pipe α) (symbols : List α) : Pipe α :=
  { p with content := p.content ++ symbols }

def Pipe.drop (p : Pipe α) (n : Nat) : Pipe α := { p with content := p.content.drop n }

def Pipe.closeReader (p : Pipe α) : Pipe α := { p with reader := false }

def Pipe.closeWriter (p : Pipe α) : Pipe α := { p with writer := false }

section
variable (p : Pipe α) (symbols : List α) (n : Nat)

@[simp] theorem Pipe.put_content : (p.put symbols).content = p.content ++ symbols := rfl
@[simp] theorem Pipe.drop_content : (p.drop n).content = p.content.drop n := rfl
@[simp] theorem Pipe.closeReader_content : p.closeReader.content = p.content := rfl
@[simp] theorem Pipe.closeWriter_content : p.closeWriter.content = p.content := rfl

end

/-- A write waits when the pipe is full. -/
theorem Pipe.accepts_iff_room {p : Pipe α} {cap asked : Nat} (hopen : p.reader = true)
    (hasked : 0 < asked) : (∃ n, p.Accepts cap n asked) ↔ p.content.length < cap := by
  constructor
  · rintro ⟨n, -, hpos, -, hroom⟩
    omega
  · intro h
    exact ⟨1, hopen, Nat.one_pos, hasked, h⟩

/-- A read waits when the pipe is empty. -/
theorem Pipe.yields_iff_ne_nil {p : Pipe α} {asked : Nat} (hasked : 0 < asked) :
    (∃ n, p.Yields n asked) ↔ p.content ≠ [] := by
  rw [← List.length_pos_iff]
  constructor
  · rintro ⟨n, hpos, -, hthere⟩
    omega
  · intro h
    exact ⟨1, Nat.one_pos, hasked, h⟩

end Lib
