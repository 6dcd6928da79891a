import Mathlib.Logic.Function.Basic

/-! The descriptor table of a process: what each number stands for, and whether
it goes at `exec`. -/
namespace Lib

structure Slot (ι : Type*) where
  object : ι
  cloexec : Bool
  deriving DecidableEq, Repr

structure Table (ι : Type*) where
  slot : Nat → Option (Slot ι)

namespace Table

variable {ι : Type*}

def empty : Table ι := ⟨fun _ => none⟩

def object (t : Table ι) (fd : Nat) : Option ι := (t.slot fd).map Slot.object

/-- Some number stands for the object. -/
def Holds (t : Table ι) (o : ι) : Prop := ∃ fd, t.object fd = some o

def opens (t : Table ι) (fd : Nat) (o : ι) (cloexec : Bool) : Table ι :=
  ⟨Function.update t.slot fd (some ⟨o, cloexec⟩)⟩

def close (t : Table ι) (fd : Nat) : Table ι := ⟨Function.update t.slot fd none⟩

/-- The copy is not marked, and a number that stands for nothing is refused. -/
def dup2 (t : Table ι) (old new : Nat) : Table ι :=
  match t.slot old with
  | none => t
  | some slot =>
    if old = new then t else ⟨Function.update t.slot new (some ⟨slot.object, false⟩)⟩

def exec (t : Table ι) : Table ι := ⟨fun fd => (t.slot fd).filter fun slot => !slot.cloexec⟩

section
variable (t : Table ι) (o : ι) (fd n : Nat)

theorem object_opens_self (c : Bool) : (t.opens fd o c).object fd = some o := by
  simp [object, opens]

theorem object_opens_of_ne {fd n : Nat} (h : n ≠ fd) (c : Bool) :
    (t.opens fd o c).object n = t.object n := by
  simp [object, opens, h]

theorem object_close_self : (t.close fd).object fd = none := by simp [object, close]

theorem object_close_of_ne {fd n : Nat} (h : n ≠ fd) : (t.close fd).object n = t.object n := by
  simp [object, close, h]

theorem object_dup2_of_ne {old new n : Nat} (h : n ≠ new) :
    (t.dup2 old new).object n = t.object n := by
  unfold dup2
  split
  · rfl
  · split
    · rfl
    · simp [object, h]

end

section
variable {t : Table ι} {o : ι}

theorem object_of_close {fd n : Nat} (h : (t.close fd).object n = some o) :
    n ≠ fd ∧ t.object n = some o := by
  by_cases hn : n = fd
  · subst n
    rw [object_close_self] at h
    cases h
  · rw [object_close_of_ne t hn] at h
    exact ⟨hn, h⟩

theorem not_holds_empty : ¬ (empty : Table ι).Holds o := by
  rintro ⟨fd, h⟩
  cases h

theorem holds_of_close {fd : Nat} (h : (t.close fd).Holds o) : t.Holds o := by
  obtain ⟨n, hn⟩ := h
  exact ⟨n, (object_of_close hn).2⟩

theorem holds_of_dup2 {old new : Nat} (h : (t.dup2 old new).Holds o) : t.Holds o := by
  obtain ⟨n, hn⟩ := h
  unfold dup2 at hn
  cases hold : t.slot old with
  | none => exact ⟨n, by simpa only [hold] using hn⟩
  | some slot =>
    simp only [hold] at hn
    split at hn
    · exact ⟨n, hn⟩
    · by_cases hnew : n = new
      · subst n
        refine ⟨old, ?_⟩
        simpa [object, hold] using hn
      · exact ⟨n, by simpa [object, hnew] using hn⟩

theorem holds_of_exec (h : t.exec.Holds o) : t.Holds o := by
  obtain ⟨n, hn⟩ := h
  obtain ⟨slot, hslot, rfl⟩ := Option.map_eq_some_iff.mp hn
  have hkept := Option.filter_eq_some_iff.mp hslot
  exact ⟨n, by simp [object, hkept.1]⟩

def Unmarked (t : Table ι) : Prop := ∀ fd slot, t.slot fd = some slot → slot.cloexec = false

theorem Unmarked.opens (h : t.Unmarked) (fd : Nat) (o : ι) : (t.opens fd o false).Unmarked := by
  intro n slot hn
  by_cases hfd : n = fd
  · subst n
    obtain rfl : ⟨o, false⟩ = slot := by simpa [Table.opens] using hn
    rfl
  · exact h n slot (by simpa [Table.opens, hfd] using hn)

theorem Unmarked.close (h : t.Unmarked) (fd : Nat) : (t.close fd).Unmarked := by
  intro n slot hn
  by_cases hfd : n = fd
  · simp [Table.close, hfd] at hn
  · exact h n slot (by simpa [Table.close, hfd] using hn)

theorem Unmarked.dup2 (h : t.Unmarked) (old new : Nat) : (t.dup2 old new).Unmarked := by
  unfold Table.dup2
  split
  · exact h
  · split
    · exact h
    · exact h.opens new _

/-- A program starts with all that the process has open. -/
theorem Unmarked.exec (h : t.Unmarked) (fd : Nat) : t.exec.object fd = t.object fd := by
  have hkept : (t.slot fd).filter (fun slot => !slot.cloexec) = t.slot fd := by
    cases hslot : t.slot fd with
    | none => rfl
    | some slot => exact Option.filter_some_pos (by rw [h fd slot hslot]; rfl)
  exact congrArg (Option.map Slot.object) hkept

end

end Table

end Lib
